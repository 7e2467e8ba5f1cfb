import ClassAssembly.Proofs.DraftOperations
import Mathlib.Data.List.Nodup

/-! Runs of operations on a draft, and what they keep true of it: each instruction emitted so far
stands in the code where it was emitted, with the distances that are known. -/
namespace ClassAssembly

/-- An operation on a draft. -/
inductive DraftOperation where
  | emit (op : Opcode) (operands : List Int)
  | emitWithEffect (op : Opcode) (operands : List Int) (popped pushed : Int)
  | jump (op : Opcode) (target : BranchTarget)
  | newLabel
  | bindLabel (label : Label)
  | bindHandler (label : Label)
  | reserveSwitch (low high : Int)
  | patchDefault (start target : Nat)
  | patchCase (start index target : Nat)
  | setDepth (depth : Int)
  | useLocals (index words : Nat)
deriving DecidableEq

namespace DraftOperation

def run : DraftOperation → Step CodeDraft Unit
  | emit op operands => CodeDraft.emit op operands
  | emitWithEffect op operands popped pushed =>
    CodeDraft.emitWithEffect op operands popped pushed
  | jump op target => CodeDraft.jump op target
  | newLabel => (fun _ => ()) <$> CodeDraft.newLabel
  | bindLabel label => CodeDraft.bindLabel label
  | bindHandler label => CodeDraft.bindHandler label
  | reserveSwitch low high => (fun _ => ()) <$> CodeDraft.reserveSwitch low high
  | patchDefault start target => CodeDraft.patchDefault start target
  | patchCase start index target => CodeDraft.patchCase start index target
  | setDepth depth => CodeDraft.setDepth depth
  | useLocals index words => CodeDraft.useLocals index words

/-- Distances are given in sixteen bits and the cases of a switch in thirty-two. -/
def Encodable : DraftOperation → Prop
  | jump _ (.distance distance) => -32768 ≤ distance ∧ distance ≤ 32767
  | reserveSwitch low high => -2147483648 ≤ low ∧ high ≤ 2147483647
  | _ => True

instance : (op : DraftOperation) → Decidable op.Encodable
  | jump _ (.distance _) | reserveSwitch .. => inferInstanceAs (Decidable (_ ∧ _))
  | emit .. | emitWithEffect .. | jump _ (.label _) | newLabel | bindLabel _ | bindHandler _
  | patchDefault .. | patchCase .. | setDepth _ | useLocals .. => .isTrue trivial

/-- The target that the operation gives to a switch. -/
def switchTarget? : DraftOperation → Option Nat
  | patchDefault _ target | patchCase _ _ target => some target
  | _ => none

/-- Moreover a switch leads to an offset that code can have. -/
def InRange (op : DraftOperation) : Prop :=
  op.Encodable ∧ ∀ target ∈ op.switchTarget?, target ≤ 65535

instance (op : DraftOperation) : Decidable op.InRange := inferInstanceAs (Decidable (_ ∧ _))

/-- The operation adds an instruction to the code. -/
def emits : DraftOperation → Bool
  | emit .. | emitWithEffect .. | jump .. | reserveSwitch .. => true
  | _ => false

/-- The instruction that an operation adds to a draft, if any, and where it starts. -/
def emission (b : CodeDraft) (op : DraftOperation) : List (Nat × DraftOperation) :=
  if op.emits then [(b.code.size, op)] else []

lemma emission_eq_nil {b : CodeDraft} {op : DraftOperation} (h : op.emits = false) :
    emission b op = [] := by
  simp [emission, h]

/-- The instructions that a run adds to a draft, in order. -/
def emissions : CodeDraft → List DraftOperation → List (Nat × DraftOperation)
  | _, [] => []
  | b, op :: ops => emission b op ++ emissions (op.run.outcome b).2 ops

/-- The target that the operation gives to an arm of the switch at `start`. -/
def target? (start : Nat) (arm : SwitchArm) : DraftOperation → Option Nat
  | patchDefault s target => if start = s ∧ arm = .default then some target else none
  | patchCase s index target => if start = s ∧ arm = .case index then some target else none
  | _ => none

/-- The target that an arm of the switch at `start` was given last. -/
def lastTarget (ops : List DraftOperation) (start : Nat) (arm : SwitchArm) : Option Nat :=
  (ops.filterMap (target? start arm)).getLast?

lemma lastTarget_append (done : List DraftOperation) (op : DraftOperation) (start : Nat)
    (arm : SwitchArm) : lastTarget (done ++ [op]) start arm =
      (op.target? start arm).or (lastTarget done start arm) := by
  rw [lastTarget, lastTarget, List.filterMap_append, List.getLast?_append]
  cases h : op.target? start arm <;> simp [h]

/-- An operation that fills in no switch changes no target. -/
lemma lastTarget_append_of_none {op : DraftOperation} (h : ∀ start arm, op.target? start arm = none)
    (done : List DraftOperation) : lastTarget (done ++ [op]) = lastTarget done := by
  funext start arm
  rw [lastTarget_append, h, Option.none_or]

/-- What was done later gave a target to one arm of the switch at `s`, and to no other. -/
def Retargets (done done' : List DraftOperation) (s : Nat) (arm : SwitchArm) (target : Nat) : Prop :=
  ∀ start other, lastTarget done' start other =
    if start = s ∧ other = arm then some target else lastTarget done start other

lemma retargets_append {op : DraftOperation} {s target : Nat} {arm : SwitchArm}
    (h : ∀ start other, op.target? start other =
      if start = s ∧ other = arm then some target else none)
    (done : List DraftOperation) : Retargets done (done ++ [op]) s arm target := by
  intro start other
  rw [lastTarget_append, h]
  split
  · rfl
  · rfl

end DraftOperation

namespace CodeDraft

open Code (Keeps Tiles BranchAt SwitchAt DecodesTo decode)
open DraftOperation (lastTarget Retargets)

variable {b b' : CodeDraft} {done done' : List DraftOperation}
  {items : List (Nat × DraftOperation)} {start : Nat}

/-- The branch at `source` is patched once the label is bound. -/
def Waits (b : CodeDraft) (label : Label) (source : Nat) : Prop :=
  ∃ offset pending, b.binding label = some (offset, pending) ∧ source ∈ pending

/-- A branch at `start` either has the distance to its label or waits for it. -/
def Linked (b : CodeDraft) (label : Label) (start : Nat) (distance : Int) : Prop :=
  ∃ offset pending, b.binding label = some (offset, pending) ∧
    (offset = none → start ∈ pending) ∧
    ∀ target : Nat, offset = some target → distance = (target : Int) - start

namespace Linked

variable {label other : Label} {distance : Int} {pending : List Nat}

lemma of_eq (h : Linked b label start distance)
    (hbinding : b'.binding label = b.binding label) : Linked b' label start distance := by
  rwa [Linked, hbinding]

/-- A branch keeps waiting when another one joins. -/
lemma of_waits {source : Nat} (h : Linked b other start distance)
    (hbefore : b.binding label = some (none, pending))
    (hafter : b'.binding = Function.update b.binding label (some (none, source :: pending))) :
    Linked b' other start distance := by
  by_cases heq : other = label
  · subst heq
    obtain ⟨offset, waiting, hother, hwaits, hbound⟩ := h
    rw [hbefore] at hother
    cases hother
    refine ⟨none, source :: pending, ?_, fun _ => List.mem_cons_of_mem _ (hwaits rfl), hbound⟩
    rw [hafter, Function.update_self]
  · exact h.of_eq (by rw [hafter, Function.update_of_ne heq])

/-- A branch that does not wait for a label is not concerned when it is bound. -/
lemma of_binds (h : Linked b other start distance) (hbinds : Binds b b' label pending)
    (hnot : start ∉ pending) : Linked b' other start distance := by
  by_cases heq : other = label
  · subst heq
    obtain ⟨offset, waiting, hother, hwaits, _⟩ := h
    rw [hbinds.before] at hother
    cases hother
    exact absurd (hwaits rfl) hnot
  · exact h.of_eq (by rw [hbinds.after, Function.update_of_ne heq])

end Linked

/-- The arms of a switch lead to the targets they were given last, and the draft has seen all of
them. -/
structure Filled (b : CodeDraft) (done : List DraftOperation) (start : Nat) (table : TableSwitch) :
    Prop where
  leads : ∀ arm (target : Nat), lastTarget done start arm = some target →
    table.distance arm = some ((target : Int) - start)
  slots : ∃ slots ∈ b.switches, slots.start = start ∧
    slots.casesPatched.size = table.offsets.length ∧
    ∀ arm, slots.patched arm = some true → lastTarget done start arm ≠ none

namespace Filled

variable {table : TableSwitch} {arm : SwitchArm} {target i : Nat} {slots : SwitchSlots}

lemma mono (h : Filled b done start table) (hlast : lastTarget done' = lastTarget done)
    (hswitches : ∀ slots ∈ b.switches, slots ∈ b'.switches) : Filled b' done' start table := by
  obtain ⟨slots, hslots, hstart, hsize, hpatched⟩ := h.slots
  rw [← hlast] at hpatched
  exact ⟨hlast ▸ h.leads, slots, hswitches slots hslots, hstart, hsize, hpatched⟩

/-- After an arm of some switch has been filled in, the draft has still seen all targets. -/
lemma slots_patches (h : Filled b done start table) (hpatches : Patches b b' arm target i slots)
    (hlast : Retargets done done' slots.start arm target) :
    ∃ slots ∈ b'.switches, slots.start = start ∧
      slots.casesPatched.size = table.offsets.length ∧
      ∀ arm, slots.patched arm = some true → lastTarget done' start arm ≠ none := by
  obtain ⟨slots', hslots', rfl, hsize', hpatched⟩ := h.slots
  obtain ⟨slots'', hmem, hstart, hsize, hmarked⟩ := hpatches.mem_switches hslots'
  refine ⟨slots'', hmem, hstart, hsize.trans hsize', fun other hother => ?_⟩
  rw [hlast]
  split
  · exact Option.some_ne_none target
  · rename_i hne
    exact hpatched other ((hmarked other hother).resolve_right hne)

lemma of_patches_ne (h : Filled b done start table) (hpatches : Patches b b' arm target i slots)
    (hlast : Retargets done done' slots.start arm target)
    (hne : start ≠ slots.start) : Filled b' done' start table := by
  refine ⟨fun other found hfound => ?_, h.slots_patches hpatches hlast⟩
  rw [hlast, if_neg fun hboth => hne hboth.1] at hfound
  exact h.leads other found hfound

lemma redirect (h : Filled b done slots.start table) (hpatches : Patches b b' arm target i slots)
    (hlast : Retargets done done' slots.start arm target)
    (harm : (table.distance arm).isSome) :
    Filled b' done' slots.start (table.redirect arm ((target : Int) - slots.start)) := by
  refine ⟨fun other found hfound => ?_, ?_⟩
  · rw [hlast] at hfound
    by_cases heq : other = arm
    · subst heq
      rw [if_pos ⟨rfl, rfl⟩] at hfound
      cases hfound
      exact TableSwitch.distance_redirect_self harm
    · rw [if_neg fun hboth => heq hboth.2] at hfound
      rw [TableSwitch.distance_redirect_of_ne heq]
      exact h.leads other found hfound
  · rw [TableSwitch.length_offsets_redirect]
    exact h.slots_patches hpatches hlast

end Filled

/-- The code at `start` is what an operation emitted, so far as it is filled in. -/
def Mirrors (b : CodeDraft) (done : List DraftOperation) (start : Nat) : DraftOperation → Prop
  | .emit op operands | .emitWithEffect op operands _ _ =>
    DecodesTo b.code start (op.spelled (operands[0]?.getD 0)) operands
  | .jump op (.distance distance) => DecodesTo b.code start op [distance]
  | .jump op (.label label) =>
    ∃ distance, BranchAt b.code start op distance ∧ Linked b label start distance
  | .reserveSwitch low high =>
    ∃ table, SwitchAt b.code start table ∧ table.low = low ∧ table.high = high ∧
      Filled b done start table
  | _ => False

lemma Mirrors.frame {op : DraftOperation} (h : Mirrors b done start op)
    (hkeeps : Keeps b.code b'.code start)
    (hlinked : ∀ label distance, Linked b label start distance → Linked b' label start distance)
    (hfilled : ∀ table, Filled b done start table → Filled b' done' start table) :
    Mirrors b' done' start op := by
  match op, h with
  | .emit .., h | .emitWithEffect .., h | .jump _ (.distance _), h => exact h.of_keeps hkeeps
  | .jump _ (.label _), ⟨distance, hbranch, hlink⟩ =>
    exact ⟨distance, hbranch.of_keeps hkeeps, hlinked _ _ hlink⟩
  | .reserveSwitch .., ⟨table, hswitch, hlow, hhigh, hfill⟩ =>
    exact ⟨table, hswitch.of_keeps hkeeps, hlow, hhigh, hfilled table hfill⟩

/-- The draft is what a run has made of it: the operations done, and the instructions emitted. -/
structure Reflects (done : List DraftOperation) (items : List (Nat × DraftOperation))
    (b : CodeDraft) : Prop where
  size : b.code.size ≤ maxCode
  tiles : Tiles b.code 0 (items.map Prod.fst) b.code.size
  mirrors : ∀ start op, (start, op) ∈ items → Mirrors b done start op
  waits : ∀ label source, Waits b label source → ∃ op, (source, .jump op (.label label)) ∈ items
  reserved : ∀ slots ∈ b.switches, ∃ low high, (slots.start, .reserveSwitch low high) ∈ items ∧
    slots.casesPatched.size = (high - low + 1).toNat
  /-- Nothing has been said about switches still to come. -/
  later : ∀ start, b.code.size ≤ start → ∀ arm, lastTarget done start arm = none

namespace Reflects

lemma empty : Reflects [] [] .empty where
  size := Nat.zero_le _
  tiles := .nil 0
  mirrors := nofun
  waits := by
    rintro label source ⟨offset, pending, h, _⟩
    cases h
  reserved := nofun
  later := fun _ _ _ => rfl

lemma start_mem {op : DraftOperation} (h : (start, op) ∈ items) : start ∈ items.map Prod.fst :=
  List.mem_map_of_mem h

/-- Instructions that start at the same offset are the same. -/
lemma unique (h : Reflects done items b) {op op' : DraftOperation} (hop : (start, op) ∈ items)
    (hop' : (start, op') ∈ items) : op = op' := by
  have hpairwise := (h.tiles.walk (Nat.le_refl _)).pairwise
  have hnodup : (items.map Prod.fst).Nodup := hpairwise.imp Nat.ne_of_lt
  exact congrArg Prod.snd (List.inj_on_of_nodup_map hnodup hop hop' rfl)

/-- An operation that leaves the code as it is. -/
lemma idle (h : Reflects done items b) (hlast : lastTarget done' = lastTarget done)
    (hcode : b'.code = b.code) (hswitches : b'.switches = b.switches)
    (hlinked : ∀ label start distance, Linked b label start distance →
      Linked b' label start distance)
    (hwaits : ∀ label source, Waits b' label source → Waits b label source) :
    Reflects done' items b' where
  size := hcode ▸ h.size
  tiles := hcode ▸ h.tiles
  mirrors := by
    intro start op hitem
    refine (h.mirrors start op hitem).frame ?_ (fun label => hlinked label start)
      fun table hfilled => hfilled.mono hlast fun slots hslots => hswitches ▸ hslots
    rw [hcode]
    exact fun _ _ _ _ _ => rfl
  waits := fun label source hwait => h.waits label source (hwaits label source hwait)
  reserved := hswitches ▸ h.reserved
  later := by
    rw [hcode, hlast]
    exact h.later

lemma sameText (h : Reflects done items b) (hlast : lastTarget done' = lastTarget done)
    (hsame : SameText b b') : Reflects done' items b' := by
  refine h.idle hlast hsame.code hsame.switches (fun label start distance hlink => ?_)
    fun label source hwait => ?_
  · exact hlink.of_eq (congrFun hsame.binding label)
  · rwa [Waits, hsame.binding] at hwait

lemma newLabel (h : Reflects done items b) {label : Label}
    (hlast : lastTarget done' = lastTarget done)
    (hnew : CodeDraft.newLabel.outcome b = (.ok label, b')) : Reflects done' items b' := by
  obtain ⟨hcode, hswitches, hfresh, hbinding⟩ := newLabel_eq_ok hnew
  refine h.idle hlast hcode hswitches (fun other start distance hlink => ?_) ?_
  · have hne : other ≠ label := by
      rintro rfl
      obtain ⟨offset, pending, hsome, _⟩ := hlink
      rw [hfresh] at hsome
      cases hsome
    exact hlink.of_eq (by rw [hbinding, Function.update_of_ne hne])
  · rintro other source ⟨offset, pending, hother, hsource⟩
    by_cases heq : other = label
    · subst heq
      rw [hbinding, Function.update_self] at hother
      cases hother
      cases hsource
    · rw [hbinding, Function.update_of_ne heq] at hother
      exact ⟨offset, pending, hother, hsource⟩

/-- An instruction is added at the end of the code. -/
lemma extend (h : Reflects done items b) {op : DraftOperation} {bytes : Bytes} {insn : Instruction}
    (hlast : lastTarget done' = lastTarget done) (hcode : b'.code = b.code ++ bytes)
    (hsize : b'.code.size ≤ maxCode) (hdecode : decode b'.code b.code.size = .ok insn)
    (hlength : insn.length = bytes.length) (hop : Mirrors b' done' b.code.size op)
    (hlinked : ∀ label start distance, Linked b label start distance →
      Linked b' label start distance)
    (hwaits : ∀ label source, Waits b' label source → Waits b label source ∨
      ∃ jump, source = b.code.size ∧ op = .jump jump (.label label))
    (hswitches : ∀ slots ∈ b.switches, slots ∈ b'.switches)
    (hreserved : ∀ slots ∈ b'.switches, slots ∈ b.switches ∨ ∃ low high,
      slots.start = b.code.size ∧ op = .reserveSwitch low high ∧
        slots.casesPatched.size = (high - low + 1).toNat) :
    Reflects done' (items ++ [(b.code.size, op)]) b' where
  size := hsize
  tiles := by
    have hgrown : b'.code.size = b.code.size + insn.length := by
      rw [hcode, Code.size_appendList, hlength]
    have htiles : Tiles b'.code 0 (items.map Prod.fst) b.code.size :=
      h.tiles.congr fun q hq other hother => ⟨other, ?_, rfl⟩
    · rw [List.map_append, hgrown]
      exact htiles.snoc hdecode
    · have hend := h.tiles.end_le hq hother
      rw [hcode]
      exact Code.decode_congr hother (Code.sameBytes_append bytes hend)
  mirrors := by
    intro start op' hitem
    rcases List.mem_append.mp hitem with hold | hnew
    · refine (h.mirrors start op' hold).frame ?_ (fun label => hlinked label start)
        fun table hfilled => hfilled.mono hlast hswitches
      intro other hother
      rw [hcode]
      exact Code.sameBytes_append bytes (h.tiles.end_le (start_mem hold) hother)
    · cases List.mem_singleton.mp hnew
      exact hop
  waits := by
    intro label source hwait
    rcases hwaits label source hwait with hold | ⟨jump, rfl, rfl⟩
    · obtain ⟨jump, hitem⟩ := h.waits label source hold
      exact ⟨jump, List.mem_append_left _ hitem⟩
    · exact ⟨jump, List.mem_append_right _ List.mem_cons_self⟩
  reserved := by
    intro slots hslots
    rcases hreserved slots hslots with hold | ⟨low, high, hstart, rfl, hcount⟩
    · obtain ⟨low, high, hitem, hcount⟩ := h.reserved slots hold
      exact ⟨low, high, List.mem_append_left _ hitem, hcount⟩
    · rw [hstart]
      exact ⟨low, high, List.mem_append_right _ List.mem_cons_self, hcount⟩
  later := by
    intro start hstart arm
    rw [hcode, Code.size_appendList] at hstart
    rw [hlast]
    exact h.later start (by omega) arm

lemma appends (h : Reflects done items b) {op : DraftOperation} {bytes : Bytes}
    {insn : Instruction} (hlast : lastTarget done' = lastTarget done)
    (happends : Appends b b' bytes) (hdecode : decode b'.code b.code.size = .ok insn)
    (hlength : insn.length = bytes.length) (hop : Mirrors b' done' b.code.size op) :
    Reflects done' (items ++ [(b.code.size, op)]) b' := by
  refine h.extend hlast happends.code happends.size hdecode hlength hop
    (fun label start distance hlink => hlink.of_eq (congrFun happends.binding label)) ?_
    (fun slots hslots => happends.switches ▸ hslots)
    fun slots hslots => .inl (happends.switches ▸ hslots)
  intro label source hwait
  rw [Waits, happends.binding] at hwait
  exact .inl hwait

lemma encodes (h : Reflects done items b) {op : Opcode} {operands : List Int}
    {operation : DraftOperation} (hlast : lastTarget done' = lastTarget done)
    (hencodes : Encodes b b' op operands)
    (hop : DecodesTo b'.code b.code.size (op.spelled (operands[0]?.getD 0)) operands →
      Mirrors b' done' b.code.size operation) :
    Reflects done' (items ++ [(b.code.size, operation)]) b' := by
  obtain ⟨traits, bytes, htraits, hcount, hencode, happends⟩ := hencodes
  have hholds := Code.holds_end b.code bytes
  rw [← happends.code] at hholds
  obtain ⟨insn, hdecode, hlength, hspells⟩ := Code.decode_operands htraits hcount hencode hholds
  exact h.appends hlast happends hdecode hlength (hop ⟨insn, hdecode, hspells⟩)

/-- A branch over a given distance. -/
lemma jumpsOver (h : Reflects done items b) {op : Opcode} {distance : Int}
    {operation : DraftOperation} (hlast : lastTarget done' = lastTarget done)
    (hjump : (jump op (.distance distance)).outcome b = (.ok (), b'))
    (hfits : -32768 ≤ distance ∧ distance ≤ 32767)
    (hop : op.spelled distance = op → DecodesTo b'.code b.code.size op [distance] →
      Mirrors b' done' b.code.size operation) :
    Reflects done' (items ++ [(b.code.size, operation)]) b' := by
  obtain ⟨traits, found, depth, b₁, htraits, hform, hresolve, happends⟩ := jump_eq_ok hjump
  obtain ⟨rfl, hsame⟩ := resolve_distance_eq_ok hresolve
  have hholds := Code.holds_end b₁.code (op.byte :: Bytes.signed 2 found)
  rw [← happends.code, hsame.code] at hholds
  have hbranch : BranchAt b'.code b.code.size op found := ⟨⟨traits, htraits, hform⟩, hfits, hholds⟩
  have hspelled := Opcode.spelled_of_form htraits (by rw [hform]; decide) found
  exact h.appends hlast (happends.of_sameText hsame) hbranch.decode_eq rfl
    (hop hspelled ⟨_, hbranch.decode_eq, rfl, rfl⟩)

/-- A branch to a label that is bound, or that it waits for from now on. -/
lemma jumpsTo (h : Reflects done items b) {op : Opcode} {label : Label}
    (hlast : lastTarget done' = lastTarget done)
    (hjump : (jump op (.label label)).outcome b = (.ok (), b')) :
    Reflects done' (items ++ [(b.code.size, .jump op (.label label))]) b' := by
  obtain ⟨traits, distance, depth, b₁, htraits, hform, hresolve, happends⟩ := jump_eq_ok hjump
  obtain ⟨hcode, hswitches, hlo, hhi, hlabel⟩ := resolve_label_eq_ok hresolve
  have hholds := Code.holds_end b₁.code (op.byte :: Bytes.signed 2 distance)
  rw [← happends.code, hcode] at hholds
  have hbranch : BranchAt b'.code b.code.size op distance :=
    ⟨⟨traits, htraits, hform⟩, ⟨hlo, hhi⟩, hholds⟩
  rcases hlabel with ⟨target, pending, hbound, hdistance, hbinding⟩ | ⟨pending, hbefore, hafter⟩
  · have hsame : SameText b b₁ := ⟨hcode, hbinding, hswitches⟩
    refine h.appends hlast (happends.of_sameText hsame) hbranch.decode_eq rfl
      ⟨distance, hbranch, some target, pending, ?_, nofun, ?_⟩
    · rw [happends.binding, hbinding, hbound]
    · rintro _ ⟨⟩
      exact hdistance
  · rw [← happends.binding] at hafter
    rw [← happends.switches] at hswitches
    have hself : b'.binding label = some (none, b.code.size :: pending) := by
      rw [hafter, Function.update_self]
    refine h.extend hlast (hcode ▸ happends.code) happends.size hbranch.decode_eq rfl
      ⟨distance, hbranch, none, _, hself, fun _ => List.mem_cons_self, nofun⟩
      (fun _ _ _ hlink => hlink.of_waits hbefore hafter) ?_ (fun _ hslots => hswitches ▸ hslots)
      fun _ hslots => .inl (hswitches ▸ hslots)
    rintro other source ⟨offset, waiting, hother, hsource⟩
    by_cases heq : other = label
    · subst heq
      rw [hself] at hother
      cases hother
      rcases List.mem_cons.mp hsource with rfl | hold
      · exact .inr ⟨op, rfl, rfl⟩
      · exact .inl ⟨none, pending, hbefore, hold⟩
    · rw [hafter, Function.update_of_ne heq] at hother
      exact .inl ⟨offset, waiting, hother, hsource⟩

/-- The branches that wait for a label lead to it once it is bound. -/
lemma binds (h : Reflects done items b) {label : Label} {pending : List Nat}
    (hlast : lastTarget done' = lastTarget done) (hbinds : Binds b b' label pending) :
    Reflects done' items b' := by
  have hjumps : ∀ s ∈ pending, ∃ op, (s, .jump op (.label label)) ∈ items :=
    fun s hs => h.waits label s ⟨none, pending, hbinds.before, hs⟩
  have hredirects : Code.Redirects b.code b'.code (items.map Prod.fst) pending.reverse
      b.code.size := by
    rw [hbinds.code]
    refine h.tiles.redirected (fun s hs => ?_) fun s hs => hbinds.fits s (List.mem_reverse.mp hs)
    obtain ⟨op, hitem⟩ := hjumps s (List.mem_reverse.mp hs)
    obtain ⟨distance, hbranch, _⟩ := h.mirrors _ _ hitem
    exact ⟨start_mem hitem, op, distance, hbranch⟩
  have hself : b'.binding label = some (some b.code.size, []) := by
    rw [hbinds.after, Function.update_self]
  refine ⟨hredirects.size ▸ h.size, hredirects.tiles, ?_, ?_, hbinds.switches ▸ h.reserved, ?_⟩
  · intro s operation hitem
    by_cases hs : s ∈ pending
    · obtain ⟨op, hjump⟩ := hjumps s hs
      obtain rfl := h.unique hitem hjump
      obtain ⟨distance, hbranch, _⟩ := h.mirrors _ _ hitem
      refine ⟨_, hredirects.sent s (List.mem_reverse.mpr hs) op distance hbranch, _, _, hself,
        nofun, ?_⟩
      rintro _ ⟨⟩
      rfl
    · exact (h.mirrors _ _ hitem).frame
        (hredirects.keeps s (start_mem hitem) (by rwa [List.mem_reverse]))
        (fun other distance hlink => hlink.of_binds hbinds hs)
        fun table hfilled => hfilled.mono hlast fun slots hslots => hbinds.switches ▸ hslots
  · rintro other source ⟨offset, waiting, hother, hsource⟩
    by_cases heq : other = label
    · subst heq
      rw [hself] at hother
      cases hother
      cases hsource
    · rw [hbinds.after, Function.update_of_ne heq] at hother
      exact h.waits other source ⟨offset, waiting, hother, hsource⟩
  · rw [hlast, hredirects.size]
    exact h.later

lemma reserves (h : Reflects done items b) {low high : Int}
    (hlast : lastTarget done' = lastTarget done) (hlow : -2147483648 ≤ low)
    (hhigh : high ≤ 2147483647) (hreserves : Reserves b b' low high) :
    Reflects done' (items ++ [(b.code.size, .reserveSwitch low high)]) b' := by
  have hholds := Code.holds_end b.code (Code.reservedBytes b.code.size low high)
  rw [← hreserves.code] at hholds
  have hswitch := Code.switchAt_reservedSwitch hreserves.ordered hlow hhigh hholds
  have hfilled : Filled b' done' b.code.size (Code.reservedSwitch b.code.size low high) := by
    refine ⟨fun arm target htarget => ?_,
      ⟨b.code.size, false, Array.replicate (high - low + 1).toNat false⟩, ?_, rfl, ?_,
      fun arm harm => ?_⟩
    · rw [hlast, h.later _ (Nat.le_refl _) arm] at htarget
      cases htarget
    · rw [hreserves.switches]
      exact Array.mem_push_self
    · simp [Code.reservedSwitch]
    · cases arm with
      | default => cases harm
      | case index =>
        obtain ⟨_, htrue⟩ := Array.getElem?_eq_some_iff.mp harm
        simp at htrue
  refine h.extend hlast hreserves.code hreserves.size hswitch.decode_eq
    (Code.length_reservedBytes _ _ _).symm ⟨_, hswitch, rfl, rfl, hfilled⟩
    (fun label start distance hlink => hlink.of_eq (congrFun hreserves.binding label)) ?_ ?_ ?_
  · intro label source hwait
    rw [Waits, hreserves.binding] at hwait
    exact .inl hwait
  · intro slots hslots
    rw [hreserves.switches]
    exact Array.mem_push_of_mem _ hslots
  · intro slots hslots
    rw [hreserves.switches] at hslots
    rcases Array.mem_push.mp hslots with hold | rfl
    · exact .inl hold
    · exact .inr ⟨low, high, rfl, rfl, Array.size_replicate⟩

/-- An arm of a switch leads to the target it has been given, and nothing else changes. -/
lemma patches (h : Reflects done items b) {arm : SwitchArm} {target i : Nat} {slots : SwitchSlots}
    (hrange : target ≤ 65535) (hpatches : Patches b b' arm target i slots)
    (hlast : Retargets done done' slots.start arm target) : Reflects done' items b' := by
  obtain ⟨low, high, hitem, hcount⟩ := h.reserved slots (Array.mem_of_getElem? hpatches.found)
  obtain ⟨table, hswitch, hlow, hhigh, hfilled⟩ := h.mirrors _ _ hitem
  have hsize : slots.casesPatched.size = table.offsets.length := by
    rw [hcount, hswitch.table.count, hlow, hhigh]
  have harm := (SwitchSlots.isSome_patched_iff hsize).mp hpatches.valid
  have hstart : slots.start < b.code.size := Code.lt_of_decode hswitch.decode_eq
  have hmax : b.code.size ≤ 65535 := h.size
  have hlo : -2147483648 ≤ (target : Int) - slots.start := by omega
  have hhi : (target : Int) - slots.start ≤ 2147483647 := by omega
  have hcodeSize : b'.code.size = b.code.size := by rw [hpatches.code, size_write]
  obtain ⟨htiles, hkeeps, hnew⟩ := h.tiles.redirectArm (start_mem hitem) hswitch harm hlo hhi
  rw [← hpatches.code] at htiles hkeeps hnew
  refine ⟨hcodeSize ▸ h.size, hcodeSize ▸ htiles, ?_, ?_, ?_, ?_⟩
  · intro s operation hother
    by_cases hs : s = slots.start
    · subst hs
      obtain rfl := h.unique hother hitem
      exact ⟨_, hnew, by rwa [TableSwitch.low_redirect], by rwa [TableSwitch.high_redirect],
        hfilled.redirect hpatches hlast harm⟩
    · exact (h.mirrors _ _ hother).frame (hkeeps s (start_mem hother) hs)
        (fun label distance hlink => hlink.of_eq (congrFun hpatches.binding label))
        fun table' hfilled' => hfilled'.of_patches_ne hpatches hlast hs
  · intro label source hwait
    rw [Waits, hpatches.binding] at hwait
    exact h.waits label source hwait
  · intro slots' hslots'
    rw [hpatches.switches] at hslots'
    rcases Array.mem_or_eq_of_mem_setIfInBounds hslots' with hold | rfl
    · exact h.reserved slots' hold
    · exact ⟨low, high, by rwa [SwitchSlots.start_mark],
        (SwitchSlots.size_casesPatched_mark _ _).trans hcount⟩
  · intro start hend other
    rw [hcodeSize] at hend
    rw [hlast, if_neg (by omega)]
    exact h.later start hend other

lemma emits (h : Reflects done items b) {op : Opcode} {operands : List Int}
    {operation : DraftOperation} (hlast : lastTarget done' = lastTarget done)
    (hemit : (emit op operands).outcome b = (.ok (), b'))
    (hop : DecodesTo b'.code b.code.size (op.spelled (operands[0]?.getD 0)) operands →
      Mirrors b' done' b.code.size operation) :
    Reflects done' (items ++ [(b.code.size, operation)]) b' := by
  rcases emit_eq_ok hemit with hencodes | ⟨distance, rfl, hlo, hhi, hjump⟩
  · exact h.encodes hlast hencodes hop
  · refine h.jumpsOver hlast hjump ⟨hlo, hhi⟩ fun hspelled hdecodes => hop ?_
    rwa [List.getElem?_cons_zero, Option.getD_some, hspelled]

end Reflects
end CodeDraft
end ClassAssembly

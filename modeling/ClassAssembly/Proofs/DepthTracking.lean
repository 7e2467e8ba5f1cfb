import ClassAssembly.Proofs.StackBound

/-! The depth of the stack that a draft tracks while code is written. So long as switches and
handlers agree with the labels they lead to, an instruction that control reaches is written with the
depth of every way to it. -/
namespace ClassAssembly

/-- Among the starts of the instructions in code that ends at `stop`, the one after `start`. -/
def Follows (starts : List Nat) (stop start next : Nat) : Prop :=
  ∃ before after, starts = before ++ start :: after ∧ after.head?.getD stop = next

namespace Follows

variable {starts : List Nat} {stop start next : Nat}

lemma snoc (h : Follows starts stop start next) (stop' : Nat) :
    Follows (starts ++ [stop]) stop' start next := by
  obtain ⟨before, after, rfl, hnext⟩ := h
  refine ⟨before, after ++ [stop], by simp, ?_⟩
  cases after with
  | nil => exact hnext
  | cons => exact hnext

lemma last (starts : List Nat) (start stop : Nat) : Follows (starts ++ [start]) stop start stop :=
  ⟨starts, [], rfl, rfl⟩

/-- An instruction is as long as the way to the next one. -/
lemma decode {code : Array UInt8} {pc : Nat} (h : Follows starts stop start next)
    (htiles : Code.Tiles code pc starts stop) :
    ∃ insn, Code.decode code start = .ok insn ∧ start + insn.length = next := by
  obtain ⟨before, after, rfl, hnext⟩ := h
  induction before generalizing pc with
  | nil =>
    cases htiles with
    | cons hdecode hrest =>
      refine ⟨_, hdecode, ?_⟩
      rw [← hnext]
      cases hrest <;> rfl
  | cons _ _ ih =>
    cases htiles with
    | cons _ hrest => exact ih hrest

end Follows

namespace Opcode

lemma traits_of_toOption {op : Opcode} {traits : OpcodeTraits}
    (h : op.traits.toOption = some traits) : op.traits = .ok traits := by
  cases htraits : op.traits with
  | error e =>
    rw [htraits] at h
    cases h
  | ok found =>
    rw [htraits] at h
    cases h
    rfl

/-- A branch pops what it tests, and pushes nothing. -/
lemma words_of_jump {op : Opcode} {traits : OpcodeTraits} (h : op.traits = .ok traits)
    (hflow : traits.flow.isJump = true) :
    traits.effect.words = some (traits.popped, 0) := by
  have hall : ∀ row ∈ OpcodeTraits.table.toList, ∀ traits ∈ row, traits.flow.isJump = true →
      traits.effect.words = some (traits.popped, 0) := by
    decide +kernel
  exact hall _ (traits_mem h) traits rfl hflow

/-- The longer opcode for a constant pushes what the shorter one does. -/
lemma words_spelled {op : Opcode} {traits traits' : OpcodeTraits} {first : Int}
    (h : op.traits = .ok traits) (h' : (op.spelled first).traits = .ok traits') :
    traits'.effect.words = traits.effect.words ∧
      (traits.effect.words = none → traits' = traits) := by
  unfold spelled at h'
  split at h'
  · rename_i hldc
    obtain ⟨rfl, _⟩ := hldc
    have hshort : ldc.traits.map (·.effect.words) = .ok (some (0, 1)) := by decide +kernel
    have hlong : ldcWide.traits.map (·.effect.words) = .ok (some (0, 1)) := by decide +kernel
    rw [h] at hshort
    rw [h'] at hlong
    have hwords : traits.effect.words = some (0, 1) := Except.ok.inj hshort
    refine ⟨(Except.ok.inj hlong).trans hwords.symm, fun hnone => ?_⟩
    rw [hwords] at hnone
    cases hnone
  · rw [h] at h'
    cases h'
    exact ⟨rfl, fun _ => rfl⟩

lemma words_tableswitch {traits : OpcodeTraits} (h : tableswitch.traits = .ok traits) :
    traits.effect.words = some (1, 0) := by
  have hwords : tableswitch.traits.map (·.effect.words) = .ok (some (1, 0)) := by decide +kernel
  rw [h] at hwords
  exact Except.ok.inj hwords

end Opcode

namespace DraftOperation

/-- Numbers of words that the instruction added to the code pops and pushes. -/
def words? : DraftOperation → Option (Nat × Nat)
  | emit op _ | jump op _ => op.traits.toOption.bind (·.effect.words)
  | emitWithEffect op _ popped pushed => op.traits.toOption.map fun traits =>
    traits.effect.words.getD (popped.toNat, pushed.toNat)
  | reserveSwitch _ _ => some (1, 0)
  | _ => none

/-- The constants say of the instruction what the operation says of it, where that hangs on a
descriptor. -/
def WordsIn (pool : ConstantPool) : DraftOperation → Prop
  | emitWithEffect op operands popped pushed => ∀ traits, op.traits = .ok traits →
    traits.effect.words = none → ∀ first second, [first, second].take operands.length = operands →
      traits.effect.wordsIn pool first second = some (popped.toNat, pushed.toNat)
  | _ => True

lemma WordsIn.mono {op : DraftOperation} {pool later : ConstantPool} (h : op.WordsIn pool)
    (hext : pool.Extends later) : op.WordsIn later := by
  cases op with
  | emitWithEffect op operands popped pushed =>
    intro traits htraits hnone first second hoperands
    exact Effect.wordsIn_mono hext (h traits htraits hnone first second hoperands)
  | _ => trivial

/-- A branch is told the label that it leads to, not the distance. -/
def ByLabel : DraftOperation → Prop
  | emit op operands | emitWithEffect op operands _ _ => op.IsBranch → operands.length ≠ 1
  | jump _ (.distance _) => False
  | _ => True

end DraftOperation

/-- An instruction that control reaches, with the depth of the stack before and after it. -/
structure DepthEntry where
  start : Nat
  before : Nat
  op : DraftOperation
  after : Nat
  stop : Nat

/-- What an operation adds to the entries; nothing if control does not reach the end of the code. -/
def DraftOperation.entry (b b' : CodeDraft) (op : DraftOperation) : List DepthEntry :=
  if op.emits ∧ b.reachable = true then [⟨b.code.size, b.depth, op, b'.depth, b'.code.size⟩] else []

namespace CodeDraft

open DraftOperation (lastTarget Retargets)

variable {b b' : CodeDraft} {done done' : List DraftOperation}
  {items items' : List (Nat × DraftOperation)} {entries entries' : List DepthEntry}
  {op : DraftOperation}

/-- The depth of the stack noted at a label. -/
def depthAt? (b : CodeDraft) (label : Label) : Option Nat := b.labels[label]?.bind LabelStatus.depth

/-- Where a label is bound. -/
def offsetOf? (b : CodeDraft) (label : Label) : Option Nat :=
  b.labels[label]?.bind LabelStatus.offset

section Labels

variable {label : Label} {before : LabelStatus}

lemma depthAt?_of_getElem? (h : b.labels[label]? = some before) :
    b.depthAt? label = before.depth := by
  rw [depthAt?, h, Option.bind_some]

lemma offsetOf?_of_getElem? (h : b.labels[label]? = some before) :
    b.offsetOf? label = before.offset := by
  rw [offsetOf?, h, Option.bind_some]

lemma offsetOf?_of_binding {offset : Option Nat} {pending : List Nat}
    (h : b.binding label = some (offset, pending)) : b.offsetOf? label = offset := by
  obtain ⟨state, hstate, heq⟩ := Option.map_eq_some_iff.mp h
  cases heq
  exact offsetOf?_of_getElem? hstate

lemma depthAt?_relabelled (h : b.labels[label]? = some before) (state : LabelStatus) :
    (b.relabelled label state).depthAt? = Function.update b.depthAt? label state.depth := by
  funext other
  rw [depthAt?, getElem?_relabelled h, Function.update_apply]
  split
  · rfl
  · rfl

lemma offsetOf?_relabelled (h : b.labels[label]? = some before) (state : LabelStatus) :
    (b.relabelled label state).offsetOf? = Function.update b.offsetOf? label state.offset := by
  funext other
  rw [offsetOf?, getElem?_relabelled h, Function.update_apply]
  split
  · rfl
  · rfl

/-- A new label has no depth and no place. -/
lemma depthAt?_newLabel (b : CodeDraft) :
    depthAt? { b with labels := b.labels.push ⟨none, none, []⟩ } = b.depthAt? := by
  funext label
  rw [depthAt?, depthAt?, Array.getElem?_push]
  split
  · rename_i heq
    rw [heq, Array.getElem?_eq_none (Nat.le_refl _)]
    rfl
  · rfl

lemma offsetOf?_newLabel (b : CodeDraft) :
    offsetOf? { b with labels := b.labels.push ⟨none, none, []⟩ } = b.offsetOf? := by
  funext label
  rw [offsetOf?, offsetOf?, Array.getElem?_push]
  split
  · rename_i heq
    rw [heq, Array.getElem?_eq_none (Nat.le_refl _)]
    rfl
  · rfl

lemma depthAt?_landing (h : b.labels[label]? = some before) (depth : Nat) (pending : List Nat) :
    (b.landing label depth pending).depthAt? = Function.update b.depthAt? label (some depth) :=
  depthAt?_relabelled h _

lemma offsetOf?_landing (h : b.labels[label]? = some before) (depth : Nat) (pending : List Nat) :
    (b.landing label depth pending).offsetOf? =
      Function.update b.offsetOf? label (some b.code.size) :=
  offsetOf?_relabelled h _

/-- What was known of each label is still known once a label is given what it had, if anything. -/
lemma update_of_agree {known : Label → Option Nat} {noted : Nat}
    (hagree : ∀ n, known label = some n → n = noted) {other : Label} {n : Nat}
    (h : known other = some n) : Function.update known label (some noted) other = some n := by
  by_cases heq : other = label
  · subst heq
    rw [Function.update_self, hagree n h]
  · rwa [Function.update_of_ne heq]

lemma eq_or_of_update {known : Label → Option Nat} {noted : Nat} {other : Label} {n : Nat}
    (h : Function.update known label (some noted) other = some n) :
    known other = some n ∨ other = label ∧ n = noted := by
  by_cases heq : other = label
  · subst heq
    rw [Function.update_self] at h
    exact .inr ⟨rfl, (Option.some.inj h).symm⟩
  · rw [Function.update_of_ne heq] at h
    exact .inl h

/-- The depth at a label has been noted, and agrees with what was noted before. -/
structure Notes (b b' : CodeDraft) (label : Label) (noted : Nat) : Prop where
  size : b'.code.size = b.code.size
  depth : b'.depth = b.depth
  reachable : b'.reachable = b.reachable
  maxStack : b'.maxStack = b.maxStack
  offsetOf : b'.offsetOf? = b.offsetOf?
  depthAt : b'.depthAt? = Function.update b.depthAt? label (some noted)
  agree : ∀ depth, b.depthAt? label = some depth → depth = noted

/-- A branch to a label notes the depth there, which is still bound where it was. -/
lemma notes_of_resolve {b' : CodeDraft} {source noted : Nat} {distance : Int}
    (h : (resolve source noted (.label label)).outcome b = (.ok distance, b')) :
    Notes b b' label noted := by
  obtain ⟨state, hstate, hagree, hb'⟩ := resolve_label_eq h
  rw [← depthAt?_of_getElem? hstate] at hagree
  have hoffsetOf : ∀ depth pending,
      (b.relabelled label ⟨state.offset, depth, pending⟩).offsetOf? = b.offsetOf? := by
    intro depth pending
    rw [offsetOf?_relabelled hstate, ← offsetOf?_of_getElem? hstate, Function.update_eq_self]
  rcases hb' with ⟨target, _, rfl⟩ | ⟨_, rfl⟩
  · exact ⟨rfl, rfl, rfl, rfl, hoffsetOf _ _, depthAt?_relabelled hstate _, hagree⟩
  · exact ⟨rfl, rfl, rfl, rfl, hoffsetOf _ _, depthAt?_relabelled hstate _, hagree⟩

lemma Notes.keeps {b' : CodeDraft} {noted : Nat} (h : Notes b b' label noted) (other : Label)
    (depth : Nat) (hdepth : b.depthAt? other = some depth) : b'.depthAt? other = some depth := by
  rw [h.depthAt]
  exact update_of_agree h.agree hdepth

end Labels

/-- Control comes to the offset with this depth: an instruction was written there with it, or the
code ends there. -/
def ReachedWith (entries : List DepthEntry) (b : CodeDraft) (offset depth : Nat) : Prop :=
  (∃ e ∈ entries, e.start = offset ∧ e.before = depth) ∨
    offset = b.code.size ∧ b.reachable = true ∧ b.depth = depth

/-- What was known of a draft is still so of a later one. -/
structure Persists (entries entries' : List DepthEntry) (b b' : CodeDraft) : Prop where
  reached : ∀ offset depth, ReachedWith entries b offset depth →
    ReachedWith entries' b' offset depth
  depthAt : ∀ label depth, b.depthAt? label = some depth → b'.depthAt? label = some depth
  offsetOf : ∀ label offset, b.offsetOf? label = some offset → b'.offsetOf? label = some offset
  maxStack : b.maxStack ≤ b'.maxStack

/-- The depth after an instruction is that of the next one, and of all places it leads to. -/
structure Accounted (done : List DraftOperation) (items : List (Nat × DraftOperation))
    (entries : List DepthEntry) (b : CodeDraft) (e : DepthEntry) : Prop where
  mem : (e.start, e.op) ∈ items
  follows : Follows (items.map Prod.fst) b.code.size e.start e.stop
  byLabel : e.op.ByLabel
  words : ∃ popped pushed, e.op.words? = some (popped, pushed) ∧ popped ≤ e.before ∧
    e.after = e.before - popped + pushed
  bounded : e.before ≤ b.maxStack ∧ e.after ≤ b.maxStack
  falls : e.op.transfers = false → ReachedWith entries b e.stop e.after
  jumps : ∀ op label, e.op = .jump op (.label label) → b.depthAt? label = some e.after
  arms : ∀ low high, e.op = .reserveSwitch low high → ∀ arm target,
    lastTarget done e.start arm = some target →
      ∃ label, b.offsetOf? label = some target ∧ b.depthAt? label = some e.after

lemma Accounted.mono {e : DepthEntry} (h : Accounted done items entries b e)
    (hpersists : Persists entries entries' b b') (hitems : (e.start, e.op) ∈ items')
    (hfollows : Follows (items'.map Prod.fst) b'.code.size e.start e.stop)
    (hlast : ∀ low high, e.op = .reserveSwitch low high → ∀ arm target,
      lastTarget done' e.start arm = some target → lastTarget done e.start arm = some target ∨
        ∃ label, b'.offsetOf? label = some target ∧ b'.depthAt? label = some e.after) :
    Accounted done' items' entries' b' e where
  mem := hitems
  follows := hfollows
  byLabel := h.byLabel
  words := h.words
  bounded := ⟨Nat.le_trans h.bounded.1 hpersists.maxStack,
    Nat.le_trans h.bounded.2 hpersists.maxStack⟩
  falls hgoes := hpersists.reached _ _ (h.falls hgoes)
  jumps op label hop := hpersists.depthAt _ _ (h.jumps op label hop)
  arms low high hop arm target htarget := by
    rcases hlast low high hop arm target htarget with hbefore | hnew
    · obtain ⟨label, hoffset, hdepth⟩ := h.arms low high hop arm target hbefore
      exact ⟨label, hpersists.offsetOf _ _ hoffset, hpersists.depthAt _ _ hdepth⟩
    · exact hnew

/-- The draft has kept track of the depth of the stack, on all ways to where control goes. -/
structure Tracked (done : List DraftOperation) (items : List (Nat × DraftOperation))
    (entries : List DepthEntry) (b : CodeDraft) : Prop where
  start : ReachedWith entries b 0 0
  labels : ∀ label offset, b.offsetOf? label = some offset →
    ∃ depth, b.depthAt? label = some depth ∧ ReachedWith entries b offset depth
  accounted : ∀ e ∈ entries, Accounted done items entries b e
  noted_le : ∀ label depth, b.depthAt? label = some depth → depth ≤ b.maxStack
  depth_le : b.depth ≤ b.maxStack
  maxStack_le : b.maxStack ≤ maxDepth

/-- The operation agrees with what the draft knows about the depth at labels. A handler is entered
with the exception alone on the stack, also from the code before it. A switch leads to labels with
the depth after it. -/
def Agrees (entries : List DepthEntry) (b : CodeDraft) : DraftOperation → Prop
  | .setDepth _ => False
  | .bindHandler label => (b.reachable = true → b.depth = 1) ∧
    ∀ depth, b.depthAt? label = some depth → depth = 1
  | .patchDefault start target | .patchCase start _ target => ∀ e ∈ entries, e.start = start →
    ∀ low high, e.op = .reserveSwitch low high →
      ∃ label, b.offsetOf? label = some target ∧ b.depthAt? label = some e.after
  | op => op.ByLabel

namespace Tracked

lemma empty : Tracked [] [] [] .empty where
  start := .inr ⟨rfl, rfl, rfl⟩
  labels := nofun
  accounted := nofun
  noted_le := nofun
  depth_le := Nat.le_refl _
  maxStack_le := Nat.zero_le _

/-- An operation that adds no instruction. Control may come to the end of the code with another
depth only where it did not come before. -/
lemma idle (h : Tracked done items entries b) (hsize : b'.code.size = b.code.size)
    (hreached : b.reachable = true → b'.reachable = true ∧ b'.depth = b.depth)
    (hdepthAt : ∀ label depth, b.depthAt? label = some depth → b'.depthAt? label = some depth)
    (hoffsetOf : ∀ label offset, b.offsetOf? label = some offset → b'.offsetOf? label = some offset)
    (hmax : b.maxStack ≤ b'.maxStack) (hmax_le : b'.maxStack ≤ maxDepth)
    (hdepth_le : b'.depth ≤ b'.maxStack)
    (hnoted_le : ∀ label depth, b'.depthAt? label = some depth → depth ≤ b'.maxStack)
    (hbound : ∀ label offset, b'.offsetOf? label = some offset → b.offsetOf? label = some offset ∨
      offset = b.code.size ∧ b'.reachable = true ∧ b'.depthAt? label = some b'.depth)
    (hlast : ∀ e ∈ entries, ∀ low high, e.op = .reserveSwitch low high → ∀ arm target,
      lastTarget done' e.start arm = some target → lastTarget done e.start arm = some target ∨
        ∃ label, b'.offsetOf? label = some target ∧ b'.depthAt? label = some e.after) :
    Tracked done' items entries b' := by
  have hpersists : Persists entries entries b b' := by
    refine ⟨fun offset depth hoffset => ?_, hdepthAt, hoffsetOf, hmax⟩
    rcases hoffset with hentry | ⟨rfl, hreachable, rfl⟩
    · exact .inl hentry
    · obtain ⟨hreachable', hdepth⟩ := hreached hreachable
      exact .inr ⟨hsize.symm, hreachable', hdepth⟩
  refine ⟨hpersists.reached _ _ h.start, fun label offset hoffset => ?_, fun e he => ?_, hnoted_le,
    hdepth_le, hmax_le⟩
  · rcases hbound label offset hoffset with hbefore | ⟨rfl, hreachable, hdepth⟩
    · obtain ⟨depth, hdepth, hreached⟩ := h.labels label offset hbefore
      exact ⟨depth, hdepthAt label depth hdepth, hpersists.reached _ _ hreached⟩
    · exact ⟨b'.depth, hdepth, .inr ⟨hsize.symm, hreachable, rfl⟩⟩
  · have haccounted := h.accounted e he
    exact haccounted.mono hpersists haccounted.mem (hsize.symm ▸ haccounted.follows) (hlast e he)

/-- An operation that leaves depths and labels alone. -/
lemma unchanged (h : Tracked done items entries b) (hsize : b'.code.size = b.code.size)
    (hreachable : b'.reachable = b.reachable) (hdepth : b'.depth = b.depth)
    (hmax : b'.maxStack = b.maxStack) (hdepthAt : b'.depthAt? = b.depthAt?)
    (hoffsetOf : b'.offsetOf? = b.offsetOf?)
    (hlast : ∀ e ∈ entries, ∀ low high, e.op = .reserveSwitch low high → ∀ arm target,
      lastTarget done' e.start arm = some target → lastTarget done e.start arm = some target ∨
        ∃ label, b.offsetOf? label = some target ∧ b.depthAt? label = some e.after) :
    Tracked done' items entries b' := by
  refine h.idle hsize (fun htrue => ⟨hreachable.trans htrue, hdepth⟩) ?_ ?_ (Nat.le_of_eq hmax.symm)
    (hmax ▸ h.maxStack_le) ?_ ?_ ?_ ?_
  · rw [hdepthAt]
    exact fun _ _ => id
  · rw [hoffsetOf]
    exact fun _ _ => id
  · rw [hdepth, hmax]
    exact h.depth_le
  · rw [hdepthAt, hmax]
    exact h.noted_le
  · rw [hoffsetOf]
    exact fun _ _ => .inl
  · rw [hdepthAt, hoffsetOf]
    exact hlast

/-- An operation that adds an instruction. -/
lemma extend (h : Tracked done items entries b) (hreflects : Reflects done items b)
    (hemits : op.emits = true) (hlast : lastTarget done' = lastTarget done) (hop : op.ByLabel)
    {popped pushed : Nat}
    (hwords : op.words? = some (popped, pushed)) (hfits : b.Fits popped pushed)
    (hreachable : b'.reachable = (b.reachable && !op.transfers))
    (hdepth : b'.depth = b.depth - popped + pushed) (hmax : b'.maxStack = max b.maxStack b'.depth)
    (hdepthAt : ∀ label depth, b.depthAt? label = some depth → b'.depthAt? label = some depth)
    (hnoted : ∀ label depth, b'.depthAt? label = some depth → b.depthAt? label = some depth ∨
      depth = b'.depth)
    (hoffsetOf : b'.offsetOf? = b.offsetOf?)
    (hjump : ∀ opcode label, op = .jump opcode (.label label) →
      b'.depthAt? label = some b'.depth) :
    Tracked done' (items ++ op.emission b) (entries ++ op.entry b b') b' := by
  have hle : b.maxStack ≤ b'.maxStack := by omega
  have hdepth_le : b'.depth ≤ b'.maxStack := by omega
  have hpersists : Persists entries (entries ++ op.entry b b') b b' := by
    refine ⟨fun offset depth hoffset => .inl ?_, hdepthAt, ?_, hle⟩
    · rcases hoffset with ⟨e, he, heq⟩ | ⟨rfl, hreached, rfl⟩
      · exact ⟨e, List.mem_append_left _ he, heq⟩
      · refine ⟨⟨b.code.size, b.depth, op, b'.depth, b'.code.size⟩,
          List.mem_append_right _ ?_, rfl, rfl⟩
        rw [DraftOperation.entry, if_pos ⟨hemits, hreached⟩]
        exact List.mem_singleton_self _
    · rw [hoffsetOf]
      exact fun _ _ => id
  have hitems : items ++ op.emission b = items ++ [(b.code.size, op)] := by
    rw [DraftOperation.emission, if_pos hemits]
  have hstarts : (items ++ [(b.code.size, op)]).map Prod.fst =
      items.map Prod.fst ++ [b.code.size] := by
    rw [List.map_append, List.map_singleton]
  rw [hitems]
  refine ⟨hpersists.reached _ _ h.start, fun label offset hoffset => ?_, fun e he => ?_, ?_,
    hdepth_le, ?_⟩
  · rw [hoffsetOf] at hoffset
    obtain ⟨depth, hdepth, hreached⟩ := h.labels label offset hoffset
    exact ⟨depth, hdepthAt label depth hdepth, hpersists.reached _ _ hreached⟩
  · rcases List.mem_append.mp he with hold | hnew
    · have haccounted := h.accounted e hold
      refine haccounted.mono hpersists (List.mem_append_left _ haccounted.mem) ?_ ?_
      · rw [hstarts]
        exact haccounted.follows.snoc _
      · intro low high _ arm target htarget
        exact .inl (hlast ▸ htarget)
    · rw [DraftOperation.entry] at hnew
      split at hnew
      · rename_i hboth
        cases List.mem_singleton.mp hnew
        refine ⟨List.mem_append_right _ (List.mem_singleton_self _), ?_, hop,
          ⟨popped, pushed, hwords, hfits.1, hdepth⟩,
          ⟨Nat.le_trans h.depth_le hle, hdepth_le⟩, ?_, hjump, ?_⟩
        · rw [hstarts]
          exact .last _ _ _
        · intro hgoes
          exact .inr ⟨rfl, by rw [hreachable, hboth.2, hgoes]; rfl, rfl⟩
        · intro low high _ arm target htarget
          rw [hlast, hreflects.later _ (Nat.le_refl _) arm] at htarget
          cases htarget
      · cases hnew
  · intro label depth hlabel
    rcases hnoted label depth hlabel with hbefore | rfl
    · exact Nat.le_trans (h.noted_le label depth hbefore) hle
    · exact hdepth_le
  · have hbefore := h.maxStack_le
    have hafter := hfits.2
    omega

/-- An instruction that has been encoded. -/
lemma encodes (h : Tracked done items entries b) (hreflects : Reflects done items b)
    {opcode : Opcode} {operands : List Int} {words : Nat × Nat} (hemits : op.emits = true)
    (hlast : lastTarget done' = lastTarget done) (hop : op.ByLabel)
    (hencodes : Emits b b' opcode operands words) (hwords : op.words? = some words)
    (hflow : op.flow? = opcode.traits.toOption.map (·.flow))
    (hnone : ∀ opcode label, op ≠ .jump opcode (.label label)) :
    Tracked done' (items ++ op.emission b) (entries ++ op.entry b b') b' := by
  obtain ⟨traits, bytes, maxLocals, htraits, _, hfits, rfl⟩ := hencodes
  have htransfers : op.transfers = traits.flow.isUnconditional := by
    rw [DraftOperation.transfers, hflow, htraits]
    rfl
  refine h.extend hreflects hemits hlast hop hwords hfits ?_ rfl rfl (fun _ _ => id)
    (fun _ _ => .inl) rfl fun opcode label heq => absurd heq (hnone opcode label)
  rw [htransfers]
  rfl

/-- A branch to a label, which notes the depth there. -/
lemma jumpsTo (h : Tracked done items entries b) (hreflects : Reflects done items b)
    {opcode : Opcode} {label : Label} (hlast : lastTarget done' = lastTarget done)
    (hrun : (jump opcode (.label label)).outcome b = (.ok (), b')) :
    Tracked done' (items ++ DraftOperation.emission b (.jump opcode (.label label)))
      (entries ++ DraftOperation.entry b b' (.jump opcode (.label label))) b' := by
  obtain ⟨traits, popped, distance, b₁, htraits, hbranch, hpopped, hresolve, hfits, rfl⟩ :=
    jump_eq hrun
  have hwords := Opcode.words_of_jump htraits hbranch
  rw [← hpopped] at hwords
  have hnotes := notes_of_resolve hresolve
  have hdepth := hnotes.depth
  have hop : DraftOperation.words? (.jump opcode (.label label)) = some (popped, 0) := by
    rw [DraftOperation.words?, htraits]
    exact hwords
  refine h.extend hreflects rfl hlast trivial hop ?_ ?_ ?_ ?_ hnotes.keeps ?_ hnotes.offsetOf ?_
  · rw [Fits, ← hdepth]
    exact hfits
  · rw [DraftOperation.transfers, DraftOperation.flow?, htraits, ← hnotes.reachable]
    rfl
  · rw [extended, hdepth]
  · rw [extended, hnotes.maxStack]
  · intro other depth hother
    have hother : b₁.depthAt? other = some depth := hother
    rw [hnotes.depthAt] at hother
    refine (eq_or_of_update hother).imp_right ?_
    rintro ⟨rfl, rfl⟩
    rw [extended, hdepth]
    rfl
  · rintro _ _ ⟨⟩
    have hnoted : b₁.depthAt? label = some (b.depth - popped) := by
      rw [hnotes.depthAt, Function.update_self]
    rw [← hdepth] at hnoted
    exact hnoted

/-- A label is bound to the end of the code, which is reached with the depth noted there. -/
lemma binds (h : Tracked done items entries b) {label : Label} {state : LabelStatus} (depth : Nat)
    (hstate : b.labels[label]? = some state) (hoffset : state.offset = none)
    (hlast : lastTarget done' = lastTarget done) (hsize : b'.code.size = b.code.size)
    (hreachable : b'.reachable = true) (hdepth : b'.depth = depth)
    (hreached : b.reachable = true → depth = b.depth)
    (hagree : ∀ noted, state.depth = some noted → noted = depth)
    (hmax : b'.maxStack = max b.maxStack depth) (hmax_le : depth ≤ maxDepth)
    (hdepthAt : b'.depthAt? = Function.update b.depthAt? label (some depth))
    (hoffsetOf : b'.offsetOf? = Function.update b.offsetOf? label (some b.code.size)) :
    Tracked done' items entries b' := by
  have hbefore := h.maxStack_le
  refine h.idle hsize (fun htrue => ⟨hreachable, hdepth.trans (hreached htrue)⟩) ?_ ?_ (by omega)
    (by omega) (by omega) ?_ ?_ fun _ _ _ _ _ _ _ htarget => .inl (hlast ▸ htarget)
  · intro other noted hnoted
    rw [hdepthAt]
    rw [← depthAt?_of_getElem? hstate] at hagree
    exact update_of_agree hagree hnoted
  · intro other offset hother
    rw [hoffsetOf]
    refine update_of_agree (fun n hn => ?_) hother
    rw [offsetOf?_of_getElem? hstate, hoffset] at hn
    cases hn
  · intro other noted hnoted
    rw [hdepthAt] at hnoted
    rcases eq_or_of_update hnoted with hbefore | ⟨rfl, rfl⟩
    · have hle := h.noted_le other noted hbefore
      omega
    · omega
  · intro other offset hother
    rw [hoffsetOf] at hother
    refine (eq_or_of_update hother).imp_right ?_
    rintro ⟨rfl, rfl⟩
    exact ⟨rfl, hreachable, by rw [hdepthAt, Function.update_self, hdepth]⟩

lemma newLabel (h : Tracked done items entries b) (hlast : lastTarget done' = lastTarget done) :
    Tracked done' items entries { b with labels := b.labels.push ⟨none, none, []⟩ } := by
  exact h.unchanged rfl rfl rfl rfl (depthAt?_newLabel b) (offsetOf?_newLabel b)
    fun _ _ _ _ _ _ _ htarget => .inl (hlast ▸ htarget)

/-- A switch is given a target where the depth is the one after it. -/
lemma patches (h : Tracked done items entries b) {arm : SwitchArm} {s target : Nat}
    {code : Array UInt8} {switches : Array SwitchSlots} (hsize : code.size = b.code.size)
    (hlast : Retargets done done' s arm target)
    (hagree : ∀ e ∈ entries, e.start = s → ∀ low high, e.op = .reserveSwitch low high →
      ∃ label, b.offsetOf? label = some target ∧ b.depthAt? label = some e.after) :
    Tracked done' items entries { b.jumping s target with code, switches } := by
  refine h.unchanged hsize rfl rfl rfl rfl rfl fun e he low high hop other found hfound => ?_
  rw [hlast] at hfound
  split at hfound
  · rename_i heq
    cases hfound
    exact .inr (hagree e he heq.1 low high hop)
  · exact .inl hfound

/-- One operation keeps track of the depth. -/
theorem step (h : Tracked done items entries b) (hreflects : Reflects done items b)
    (hagrees : Agrees entries b op) (hrun : op.run.outcome b = (.ok (), b')) :
    Tracked (done ++ [op]) (items ++ op.emission b) (entries ++ op.entry b b') b' := by
  have hlast : (∀ start arm, op.target? start arm = none) →
      lastTarget (done ++ [op]) = lastTarget done :=
    fun hnone => DraftOperation.lastTarget_append_of_none hnone done
  have hidle : op.emits = false → Tracked (done ++ [op]) items entries b' →
      Tracked (done ++ [op]) (items ++ op.emission b) (entries ++ op.entry b b') b' := by
    intro hnone hb'
    have hnot : op.emits ≠ true := by simp [hnone]
    rw [DraftOperation.emission_eq_nil hnone, DraftOperation.entry,
      if_neg fun hboth => hnot hboth.1, List.append_nil, List.append_nil]
    exact hb'
  cases op with
  | emit opcode operands =>
    rcases emit_eq hrun with ⟨traits, words, htraits, hwords, hemits⟩ | ⟨distance, rfl, hjump⟩
    · refine h.encodes hreflects rfl (hlast fun _ _ => rfl) hagrees hemits ?_ rfl
        fun _ _ heq => by cases heq
      rw [DraftOperation.words?, htraits]
      exact hwords
    · obtain ⟨traits, _, _, _, htraits, hbranch, _⟩ := jump_eq hjump
      exact absurd rfl (hagrees ⟨traits, htraits, hbranch⟩)
  | emitWithEffect opcode operands popped pushed =>
    rcases emitWithEffect_eq hrun with ⟨traits, htraits, hnone, hemits⟩ | hemit
    · refine h.encodes hreflects rfl (hlast fun _ _ => rfl) hagrees hemits ?_ rfl
        fun _ _ heq => by cases heq
      rw [DraftOperation.words?, htraits, Except.toOption, Option.map_some, hnone, Option.getD_none]
    · rcases emit_eq hemit with ⟨traits, words, htraits, hwords, hemits⟩ | ⟨distance, rfl, hjump⟩
      · refine h.encodes hreflects rfl (hlast fun _ _ => rfl) hagrees hemits ?_ rfl
          fun _ _ heq => by cases heq
        rw [DraftOperation.words?, htraits, Except.toOption, Option.map_some, hwords,
          Option.getD_some]
      · obtain ⟨traits, _, _, _, htraits, hbranch, _⟩ := jump_eq hjump
        exact absurd rfl (hagrees ⟨traits, htraits, hbranch⟩)
  | jump opcode target =>
    cases target with
    | label label => exact h.jumpsTo hreflects (hlast fun _ _ => rfl) hrun
    | distance distance => exact absurd hagrees id
  | reserveSwitch low high =>
    obtain ⟨_, hreserve, _⟩ := Step.map_eq_ok.mp hrun
    obtain ⟨rfl, hfits, bytes, switches, rfl⟩ := reserveSwitch_eq hreserve
    exact h.extend hreflects rfl (hlast fun _ _ => rfl) trivial rfl hfits rfl rfl rfl
      (fun _ _ => id) (fun _ _ => .inl) rfl fun _ _ heq => by cases heq
  | newLabel =>
    refine hidle rfl ?_
    obtain ⟨label, hnew, _⟩ := Step.map_eq_ok.mp hrun
    cases hnew
    exact h.newLabel (hlast fun _ _ => rfl)
  | bindLabel label =>
    refine hidle rfl ?_
    obtain ⟨state, hstate, hoffset, hagree, rfl⟩ := bindLabel_eq hrun
    have hnoted := h.noted_le label
    rw [depthAt?_of_getElem? hstate] at hnoted
    have hle : (if b.reachable then b.depth else state.depth.getD b.depth) ≤ b.maxStack := by
      split
      · exact h.depth_le
      · cases hdepth : state.depth with
        | none => exact h.depth_le
        | some depth => exact hnoted depth hdepth
    refine h.binds _ hstate hoffset (hlast fun _ _ => rfl) (size_redirected _ _ _) rfl rfl
      (fun htrue => if_pos htrue) (fun noted hdepth => ?_) (Nat.max_eq_left hle).symm
      (Nat.le_trans hle h.maxStack_le) (depthAt?_landing hstate _ _) (offsetOf?_landing hstate _ _)
    cases hreachable : b.reachable with
    | true => exact hagree hreachable noted hdepth
    | false => simp [landing, relabelled, redirecting, hdepth]
  | bindHandler label =>
    refine hidle rfl ?_
    obtain ⟨hreached, hnoted⟩ := hagrees
    obtain ⟨state, hstate, hoffset, _, rfl⟩ := bindHandler_eq hrun
    rw [depthAt?_of_getElem? hstate] at hnoted
    have hone : state.depth.getD 1 = 1 := by
      cases hdepth : state.depth with
      | none => rfl
      | some depth => exact hnoted depth hdepth
    rw [hone]
    exact h.binds 1 hstate hoffset (hlast fun _ _ => rfl) (size_redirected _ _ _) rfl rfl
      (fun htrue => (hreached htrue).symm) hnoted rfl (by decide)
      (depthAt?_landing hstate 1 state.pending) (offsetOf?_landing hstate 1 state.pending)
  | patchDefault start target =>
    refine hidle rfl ?_
    obtain ⟨_, _, _, hpatches⟩ := patchDefault_eq_ok hrun
    obtain ⟨code, switches, rfl⟩ := patchDefault_eq hrun
    exact h.patches hpatches.size_eq (DraftOperation.retargets_append (fun _ _ => rfl) done) hagrees
  | patchCase start index target =>
    refine hidle rfl ?_
    obtain ⟨_, _, _, hpatches⟩ := patchCase_eq_ok hrun
    obtain ⟨code, switches, rfl⟩ := patchCase_eq hrun
    exact h.patches hpatches.size_eq (DraftOperation.retargets_append (fun _ _ => rfl) done) hagrees
  | setDepth depth => exact absurd hagrees id
  | useLocals index words =>
    refine hidle rfl ?_
    obtain rfl := useLocals_eq hrun
    exact h.unchanged rfl rfl rfl rfl rfl rfl fun _ _ _ _ _ _ _ htarget =>
      .inl (hlast (fun _ _ => rfl) ▸ htarget)

end Tracked

/-- A finished instruction pops and pushes what the operation that emitted it did. -/
lemma words_of_readsBack {start : Nat} {insn : Instruction} {pool : ConstantPool}
    {words : Nat × Nat} (h : ReadsBack b done start op) (hpool : op.WordsIn pool)
    (hwords : op.words? = some words) (hdecode : Code.decode b.code start = .ok insn) :
    insn.words? pool = some words := by
  have hop : ∀ {opcode operands}, Code.DecodesTo b.code start opcode operands →
      insn.opcode = opcode ∧ [insn.first, insn.second].take operands.length = operands := by
    rintro opcode operands ⟨insn', hdecode', hspells⟩
    rw [hdecode] at hdecode'
    cases hdecode'
    exact hspells
  obtain ⟨traits, htraits, _⟩ := Code.decode_shape hdecode
  rw [Instruction.words?_eq htraits]
  cases op with
  | emit opcode operands =>
    rw [DraftOperation.words?] at hwords
    obtain ⟨traits', htraits', hwords⟩ := Option.bind_eq_some_iff.mp hwords
    rw [(hop h).1] at htraits
    have hsame := (Opcode.words_spelled (Opcode.traits_of_toOption htraits') htraits).1
    exact Effect.wordsIn_of_words (hsame.trans hwords) pool _ _
  | emitWithEffect opcode operands popped pushed =>
    rw [DraftOperation.words?] at hwords
    obtain ⟨traits', htraits', hwords⟩ := Option.map_eq_some_iff.mp hwords
    have htraits' := Opcode.traits_of_toOption htraits'
    rw [(hop h).1] at htraits
    obtain ⟨hsame, hnone⟩ := Opcode.words_spelled htraits' htraits
    cases heffect : traits'.effect.words with
    | none =>
      rw [heffect, Option.getD_none] at hwords
      rw [hnone heffect, ← hwords]
      exact hpool traits' htraits' heffect _ _ (hop h).2
    | some fixed =>
      rw [heffect, Option.getD_some] at hwords
      rw [heffect] at hsame
      exact Effect.wordsIn_of_words (hwords ▸ hsame) pool _ _
  | jump opcode target =>
    rw [DraftOperation.words?] at hwords
    obtain ⟨traits', htraits', hwords⟩ := Option.bind_eq_some_iff.mp hwords
    have hopcode : insn.opcode = opcode := by
      cases target with
      | distance => exact (hop h).1
      | label =>
        obtain ⟨_, _, h⟩ := h
        exact (hop h).1
    rw [hopcode, Opcode.traits_of_toOption htraits'] at htraits
    cases htraits
    exact Effect.wordsIn_of_words hwords pool _ _
  | reserveSwitch low high =>
    rw [(hop h.1).1] at htraits
    cases hwords
    exact Effect.wordsIn_of_words (Opcode.words_tableswitch htraits) pool _ _
  | newLabel | bindLabel | bindHandler | patchDefault | patchCase | setDepth | useLocals =>
    cases hwords

namespace Tracked

lemma entry_of_reached {offset depth : Nat} (h : ReachedWith entries b offset depth)
    (hlt : offset < b.code.size) : ∃ e ∈ entries, e.start = offset ∧ e.before = depth :=
  h.resolve_right fun hend => Nat.ne_of_lt hlt hend.1

/-- An instruction leads to where the depth is the one after it. -/
lemma entry_of_leadsTo (h : Tracked done items entries b) {e : DepthEntry} (he : e ∈ entries)
    {target : Nat} (hleads : LeadsTo b done e.start target e.op) (hlt : target < b.code.size) :
    ∃ e' ∈ entries, e'.start = target ∧ e'.before = e.after := by
  have haccounted := h.accounted e he
  have hbyLabel := haccounted.byLabel
  -- It is enough to find a label there with that depth.
  have hlabel : ∀ label, b.offsetOf? label = some target → b.depthAt? label = some e.after →
      ∃ e' ∈ entries, e'.start = target ∧ e'.before = e.after := by
    intro label hoffset hdepth
    obtain ⟨depth, hdepth', hreached⟩ := h.labels label target hoffset
    rw [hdepth] at hdepth'
    cases hdepth'
    exact entry_of_reached hreached hlt
  cases hop : e.op with
  | emit opcode operands | emitWithEffect opcode operands popped pushed =>
    rw [hop] at hleads hbyLabel
    obtain ⟨hbranch, distance, rfl, _⟩ := hleads
    exact absurd rfl (hbyLabel hbranch)
  | jump opcode branch =>
    rw [hop] at hleads hbyLabel
    cases branch with
    | distance => exact absurd hbyLabel id
    | label label =>
      obtain ⟨found, pending, hbinding, htarget⟩ := hleads
      obtain rfl : target = found := Int.ofNat.inj htarget
      exact hlabel label (offsetOf?_of_binding hbinding) (haccounted.jumps opcode label hop)
  | reserveSwitch low high =>
    rw [hop] at hleads
    obtain ⟨arm, found, hlast, htarget⟩ := hleads
    obtain rfl : target = found := Int.ofNat.inj htarget
    obtain ⟨label, hoffset, hdepth⟩ := haccounted.arms low high hop arm target hlast
    exact hlabel label hoffset hdepth
  | newLabel | bindLabel | bindHandler | patchDefault | patchCase | setDepth | useLocals =>
    rw [hop] at hleads
    exact absurd hleads id

/-- The depths tracked while the code was written are a map of the finished code. -/
theorem depthMap (h : Tracked done items entries b) (hreflects : Reflects done items b)
    (hrecorded : Recorded done items b) (hresolved : b.checkResolved = .ok ())
    {pool : ConstantPool} (hwords : ∀ e ∈ entries, e.op.WordsIn pool)
    {handlers : List ExceptionHandler} (hhandlers : ∀ handler ∈ handlers, ∃ label,
      b.offsetOf? label = some handler.handler.toNat ∧ b.depthAt? label = some 1) :
    Code.DepthMap b.code handlers pool b.maxStack fun pc depth =>
      ∃ e ∈ entries, e.start = pc ∧ e.before = depth where
  start hpos := entry_of_reached h.start hpos
  handler handler hmem hlt := by
    obtain ⟨label, hoffset, hone⟩ := hhandlers handler hmem
    obtain ⟨depth, hdepth, hreached⟩ := h.labels label _ hoffset
    rw [hone] at hdepth
    cases hdepth
    exact entry_of_reached hreached hlt
  bounded := by
    rintro _ _ ⟨e, he, rfl, rfl⟩
    exact (h.accounted e he).bounded.1
  step := by
    rintro _ _ insn traits ⟨e, he, rfl, rfl⟩ hdecode htraits
    have haccounted := h.accounted e he
    obtain ⟨popped, pushed, hop, _, hafter⟩ := haccounted.words
    have hreads := (hreflects.mirrors e.start e.op haccounted.mem).readsBack hresolved
    have hnoted := hrecorded.noted e.start e.op haccounted.mem
    obtain ⟨insn', traits', hdecode', htraits', hflow⟩ := flow_of_readsBack hreads hnoted
    rw [hdecode] at hdecode'
    cases hdecode'
    rw [htraits] at htraits'
    cases htraits'
    refine ⟨popped, pushed, words_of_readsBack hreads (hwords e he) hop hdecode, ?_⟩
    rw [← hafter]
    refine ⟨haccounted.bounded.2, fun hgoes hlt => ?_, fun target hjumps hlt => ?_⟩
    · obtain ⟨insn', hdecode', hstop⟩ := haccounted.follows.decode hreflects.tiles
      rw [hdecode] at hdecode'
      cases hdecode'
      rw [hstop] at hlt ⊢
      refine entry_of_reached (haccounted.falls ?_) hlt
      rw [DraftOperation.transfers, hflow]
      exact hgoes
    · exact h.entry_of_leadsTo he (leadsTo_of_readsBack hreads hnoted hjumps) hlt

end Tracked

/-- All that is known of a draft and the run that wrote it. -/
structure Traced (done : List DraftOperation) (items : List (Nat × DraftOperation))
    (entries : List DepthEntry) (b : CodeDraft) : Prop where
  reflects : Reflects done items b
  recorded : Recorded done items b
  tracked : Tracked done items entries b

namespace Traced

lemma empty : Traced [] [] [] .empty := ⟨.empty, .empty, .empty⟩

theorem step (h : Traced done items entries b) (hrange : op.InRange) (hagrees : Agrees entries b op)
    (hrun : op.run.outcome b = (.ok (), b')) :
    Traced (done ++ [op]) (items ++ op.emission b) (entries ++ op.entry b b') b' :=
  ⟨h.reflects.step hrange hrun, h.recorded.step h.reflects hrun,
    h.tracked.step h.reflects hagrees hrun⟩

/-- Labels are bound within the code. -/
lemma offset_le (h : Traced done items entries b) {label : Label} {offset : Nat}
    (hoffset : b.offsetOf? label = some offset) : offset ≤ b.code.size := by
  obtain ⟨_, _, ⟨e, he, rfl, _⟩ | ⟨rfl, _⟩⟩ := h.tracked.labels label offset hoffset
  · have hwalk := h.reflects.tiles.walk (Nat.le_refl _)
    have hmem := Reflects.start_mem (h.tracked.accounted e he).mem
    exact Nat.le_of_lt (hwalk.bounds _ hmem).2
  · exact Nat.le_refl _

end Traced
end CodeDraft
end ClassAssembly

import ClassAssembly.Proofs.CodeReferences

/-! The source lines of a method. A line that is given while the code is written holds from there on:
the last of several at one offset counts, and one that is given again is not noted again. In the
closed method the table of lines tells for every instruction the line that was given last before
it. -/
namespace ClassAssembly

/-- What a table of lines tells about an offset: the line of the entry that starts last, of those that
do not start behind it, and nothing where they all do. -/
def LineNumber.Tells (table : List LineNumber) (pc : Nat) : Option UInt16 → Prop
  | some line => ∃ entry ∈ table, entry.line = line ∧ entry.start.toNat ≤ pc ∧
      ∀ other ∈ table, other.start.toNat ≤ pc → other.start ≤ entry.start
  | none => ∀ entry ∈ table, pc < entry.start.toNat

namespace AttributeBody

def lines? : AttributeBody → Option (List LineNumber)
  | lineNumbers lines => some lines
  | _ => none

/-- The entries of all tables of lines. -/
def lineTable (tables : List AttributeBody) : List LineNumber := (tables.filterMap lines?).flatten

end AttributeBody

namespace MethodBody

variable {lines : Array (Nat × UInt16)} {offset : Nat}

/-- The line at an offset: that of the last entry that does not start behind it. -/
def lineAt (lines : Array (Nat × UInt16)) (pc : Nat) : Option UInt16 :=
  (lines.toList.reverse.find? (·.1 ≤ pc)).map Prod.snd

lemma lineAt_push (lines : Array (Nat × UInt16)) (offset : Nat) (line : UInt16) (pc : Nat) :
    lineAt (lines.push (offset, line)) pc = if offset ≤ pc then some line else lineAt lines pc := by
  simp only [lineAt, Array.toList_push, List.reverse_append, List.reverse_singleton,
    List.singleton_append, List.find?_cons]
  by_cases hle : offset ≤ pc <;> simp [hle]

/-- Lines in the order of their offsets, of which none is behind the end of the code. -/
structure Lined (lines : Array (Nat × UInt16)) (offset : Nat) : Prop where
  ascending : lines.toList.Pairwise (·.1 < ·.1)
  bounded : ∀ entry ∈ lines.toList, entry.1 ≤ offset

lemma Lined.mono {later : Nat} (h : Lined lines offset) (hle : offset ≤ later) : Lined lines later :=
  ⟨h.ascending, fun entry hentry => Nat.le_trans (h.bounded entry hentry) hle⟩

lemma lined_push_iff {start : Nat} {line : UInt16} : Lined (lines.push (start, line)) offset ↔
    Lined lines offset ∧ start ≤ offset ∧ ∀ entry ∈ lines.toList, entry.1 < start := by
  have hascending : (lines.push (start, line)).toList.Pairwise (·.1 < ·.1) ↔
      lines.toList.Pairwise (·.1 < ·.1) ∧ ∀ entry ∈ lines.toList, entry.1 < start := by
    simp [List.pairwise_append]
  have hbounded : (∀ entry ∈ (lines.push (start, line)).toList, entry.1 ≤ offset) ↔
      (∀ entry ∈ lines.toList, entry.1 ≤ offset) ∧ start ≤ offset := by
    rw [Array.toList_push, List.forall_mem_append, List.forall_mem_singleton]
  constructor
  · intro h
    obtain ⟨hinit, hlt⟩ := hascending.mp h.ascending
    obtain ⟨hle, hstart⟩ := hbounded.mp h.bounded
    exact ⟨⟨hinit, hle⟩, hstart, hlt⟩
  · rintro ⟨h, hstart, hlt⟩
    exact ⟨hascending.mpr ⟨h.ascending, hlt⟩, hbounded.mpr ⟨h.bounded, hstart⟩⟩

/-- A line replaces the one at its offset, or the code is on it already, or it is added behind the
others. -/
lemma pushLine_cases (lines : Array (Nat × UInt16)) (offset : Nat) (line : UInt16) :
    (∃ (init : Array (Nat × UInt16)) (old : UInt16), lines = init.push (offset, old) ∧
        pushLine lines offset line = init.push (offset, line)) ∨
      (∃ (init : Array (Nat × UInt16)) (start : Nat), lines = init.push (start, line) ∧
        pushLine lines offset line = lines) ∨
      (lines = #[] ∨ ∃ (init : Array (Nat × UInt16)) (start : Nat) (old : UInt16),
          lines = init.push (start, old) ∧ start ≠ offset) ∧
        pushLine lines offset line = lines.push (offset, line) := by
  rw [pushLine]
  cases hback : lines.back? with
  | none => exact .inr (.inr ⟨.inl (Array.back?_eq_none_iff.mp hback), rfl⟩)
  | some entry =>
    obtain ⟨start, old⟩ := entry
    obtain ⟨init, rfl⟩ := Array.back?_eq_some_iff.mp hback
    simp only [Array.pop_push]
    split
    · rename_i hstart
      exact .inl ⟨init, old, by rw [hstart], rfl⟩
    · rename_i hstart
      split
      · rename_i hline
        exact .inr (.inl ⟨init, start, by rw [hline], rfl⟩)
      · exact .inr (.inr ⟨.inr ⟨init, start, old, rfl, hstart⟩, rfl⟩)

/-- A line that is given at the end of the code holds from there on, and changes nothing before. -/
lemma Lined.pushLine (h : Lined lines offset) (line : UInt16) :
    Lined (pushLine lines offset line) offset ∧ ∀ pc, lineAt (pushLine lines offset line) pc =
      if offset ≤ pc then some line else lineAt lines pc := by
  rcases pushLine_cases lines offset line with ⟨init, old, rfl, hpush⟩ | ⟨init, start, rfl, hpush⟩ |
    ⟨hlast, hpush⟩
  · have hinit := lined_push_iff.mp h
    rw [hpush]
    refine ⟨lined_push_iff.mpr hinit, fun pc => ?_⟩
    rw [lineAt_push, lineAt_push]
    split <;> rfl
  · obtain ⟨_, hstart, _⟩ := lined_push_iff.mp h
    rw [hpush]
    refine ⟨h, fun pc => ?_⟩
    split
    · rw [lineAt_push, if_pos (by omega)]
    · rfl
  · rw [hpush]
    refine ⟨lined_push_iff.mpr ⟨h, Nat.le_refl _, fun entry hentry => ?_⟩,
      fun pc => lineAt_push lines offset line pc⟩
    rcases hlast with rfl | ⟨init, start, old, rfl, hne⟩
    · cases hentry
    · obtain ⟨_, hstart, hlt⟩ := lined_push_iff.mp h
      rw [Array.toList_push, List.mem_append, List.mem_singleton] at hentry
      rcases hentry with hentry | rfl
      · exact Nat.lt_of_lt_of_le (hlt entry hentry) hstart
      · exact Nat.lt_of_le_of_ne hstart hne

/-- The line at an offset, if there is one, is that of an entry such that no other one is closer. -/
lemma Lined.lineAt_cases (h : Lined lines offset) (pc : Nat) :
    (lineAt lines pc = none ∧ ∀ entry ∈ lines.toList, pc < entry.1) ∨
      ∃ start line, lineAt lines pc = some line ∧ (start, line) ∈ lines.toList ∧ start ≤ pc ∧
        ∀ other ∈ lines.toList, other.1 ≤ pc → other.1 ≤ start := by
  cases hfind : lines.toList.reverse.find? (·.1 ≤ pc) with
  | none =>
    refine .inl ⟨by rw [lineAt, hfind, Option.map_none], fun entry hentry => ?_⟩
    have hnot := List.find?_eq_none.mp hfind entry (List.mem_reverse.mpr hentry)
    simpa using hnot
  | some found =>
    obtain ⟨start, line⟩ := found
    obtain ⟨hstart, later, earlier, hsplit, hlater⟩ := List.find?_eq_some_iff_append.mp hfind
    have hlines : lines.toList = earlier.reverse ++ (start, line) :: later.reverse := by
      rw [List.reverse_eq_iff.mp hsplit]
      simp
    have hascending := h.ascending
    rw [hlines, List.pairwise_append] at hascending
    refine .inr ⟨start, line, by rw [lineAt, hfind, Option.map_some], by simp [hlines],
      of_decide_eq_true hstart, fun other hother hle => ?_⟩
    rw [hlines, List.mem_append, List.mem_cons] at hother
    rcases hother with hother | rfl | hother
    · exact Nat.le_of_lt (hascending.2.2 other hother (start, line) (by simp))
    · exact Nat.le_refl _
    · have hnot := hlater other (List.mem_reverse.mp hother)
      simp [hle] at hnot

section Closing

variable {m : MethodBody} {length : Nat} {entry : LineNumber}

lemma mem_lineNumbers (hlength : length ≤ 65535) : entry ∈ m.lineNumbers length ↔
    (entry.start.toNat, entry.line) ∈ m.lines.toList ∧ entry.start.toNat < length := by
  rw [lineNumbers, List.mem_filterMap]
  constructor
  · rintro ⟨⟨offset, line⟩, hmem, hentry⟩
    simp only at hentry
    split at hentry
    · rename_i hlt
      cases hentry
      have hoffset : (UInt16.ofNat offset).toNat = offset :=
        UInt16.toNat_ofNat_of_lt' (show offset < 65536 by omega)
      simp only [hoffset]
      exact ⟨hmem, hlt⟩
    · cases hentry
  · rintro ⟨hmem, hlt⟩
    refine ⟨_, hmem, ?_⟩
    simp only [hlt, if_true, UInt16.ofNat_toNat]

lemma ascending_lineNumbers (h : Lined m.lines offset) (hlength : length ≤ 65535) :
    (m.lineNumbers length).Pairwise (·.start < ·.start) := by
  rw [lineNumbers, List.pairwise_filterMap]
  refine h.ascending.imp fun {a b} hlt x hx y hy => ?_
  simp only at hx hy
  split at hx
  · split at hy
    · cases hx
      cases hy
      rw [UInt16.lt_iff_toNat_lt, UInt16.toNat_ofNat', UInt16.toNat_ofNat']
      omega
    · cases hy
  · cases hx

/-- The table of lines tells about each offset in the code what was noted for it. -/
lemma Lined.tells {pc : Nat} (h : Lined m.lines offset) (hlength : length ≤ 65535)
    (hpc : pc < length) : LineNumber.Tells (m.lineNumbers length) pc (lineAt m.lines pc) := by
  rcases h.lineAt_cases pc with ⟨hnone, hbehind⟩ | ⟨start, line, hsome, hmem, hstart, hlast⟩
  · rw [hnone]
    intro entry hentry
    exact hbehind _ ((mem_lineNumbers hlength).mp hentry).1
  · have hnat : (UInt16.ofNat start).toNat = start :=
      UInt16.toNat_ofNat_of_lt' (show start < 65536 by omega)
    rw [hsome]
    refine ⟨⟨UInt16.ofNat start, line⟩, ?_, rfl, ?_, fun other hother hle => ?_⟩
    · rw [mem_lineNumbers hlength, hnat]
      exact ⟨hmem, Nat.lt_of_le_of_lt hstart hpc⟩
    · rw [hnat]
      exact hstart
    · rw [UInt16.le_iff_toNat_le, hnat]
      exact hlast _ ((mem_lineNumbers hlength).mp hother).1 hle

lemma filterMap_lines?_tables (length : Nat) (locals : List LocalVariable)
    (entries : List StackMapEntry) :
    (m.tables length locals entries).filterMap AttributeBody.lines? =
      if m.lines.isEmpty then [] else [m.lineNumbers length] := by
  have hnamed : (if locals.isEmpty then [] else [.localVariables locals]).filterMap
      AttributeBody.lines? = [] := by split <;> rfl
  have hstackMap : (if entries.isEmpty then [] else [.stackMap entries]).filterMap
      AttributeBody.lines? = [] := by split <;> rfl
  rw [tables, List.filterMap_append, List.filterMap_append, hnamed, hstackMap, List.append_nil,
    List.append_nil]
  split <;> rfl

lemma lineTable_tables (length : Nat) (locals : List LocalVariable) (entries : List StackMapEntry) :
    AttributeBody.lineTable (m.tables length locals entries) = m.lineNumbers length := by
  rw [AttributeBody.lineTable, filterMap_lines?_tables]
  split
  · rename_i hempty
    rw [lineNumbers, Array.isEmpty_iff.mp hempty]
    rfl
  · exact List.flatten_singleton

end Closing
end MethodBody

namespace MethodOperation

open MethodBody (Lined lineAt pushLine)
open MethodBuilder (Steady)

variable {op : MethodOperation} {done ops : List MethodOperation} {s s' : MethodBuilder}

def line? : MethodOperation → Option UInt16
  | draft _ => none
  | build call => call.line?

/-- The line that was given last. -/
def lastLine (ops : List MethodOperation) : Option UInt16 := (ops.filterMap line?).getLast?

lemma lastLine_concat (ops : List MethodOperation) (op : MethodOperation) :
    lastLine (ops ++ [op]) = op.line?.or (lastLine ops) := by
  rw [lastLine, List.filterMap_append, List.getLast?_append, lastLine]
  cases hline : op.line? <;> simp [hline]

/-- What is steady holds after an operation that gives no line. -/
lemma steady_run {Inv : MethodBuilder → Prop} (h : Steady Inv) (hline : op.line? = none)
    (hrange : op.InRange) (hs : Inv s) : Inv (op.run.outcome s).2 := by
  cases op with
  | draft op => exact h.code s op hrange hs
  | build call => exact BuilderCall.attempt_unlined h call hline hrange hs

/-- The lines are as they were, the code has not become shorter, and it is within its limits. -/
structure Onward (lines : Array (Nat × UInt16)) (length : Nat) (s : MethodBuilder) : Prop where
  lines : s.method.lines = lines
  size_le : length ≤ s.method.code.code.size
  limited : s.method.code.Limited (s.method.descriptor.parameterWords (!s.method.isStatic))

lemma steady_onward (lines : Array (Nat × UInt16)) (length : Nat) :
    Steady (Onward lines length) where
  pool _ _ h _ := ⟨h.lines, h.size_le, h.limited⟩
  code _ op _ h :=
    ⟨h.lines, CodeDraft.keeps_run (CodeDraft.sized_long length) op _ h.size_le,
      CodeDraft.keeps_run (CodeDraft.sized_limited _) op _ h.limited⟩
  tables _ _ _ h := ⟨h.lines, h.size_le, h.limited⟩

/-- The lines of the code so far are those that were given, and the last one holds from here on. -/
structure Annotated (done : List MethodOperation) (s : MethodBuilder) : Prop where
  limited : s.method.code.Limited (s.method.descriptor.parameterWords (!s.method.isStatic))
  lined : Lined s.method.lines s.method.code.code.size
  current : ∀ pc, s.method.code.code.size ≤ pc → lineAt s.method.lines pc = lastLine done

/-- The code has not become shorter, and the lines of what there was are the same. -/
structure Retains (s s' : MethodBuilder) : Prop where
  size_le : s.method.code.code.size ≤ s'.method.code.code.size
  lineAt_eq : ∀ pc, pc < s.method.code.code.size → lineAt s'.method.lines pc = lineAt s.method.lines pc

/-- An operation gives a line and does nothing else, or it leaves the lines alone. -/
lemma run_cases (h : Annotated done s) (hrange : op.InRange)
    (hrun : op.run.outcome s = (.ok (), s')) :
    (∃ line, op.line? = some line ∧ s' = { s with method := { s.method with
        lines := pushLine s.method.lines s.method.code.code.size line } }) ∨
      op.line? = none ∧ Onward s.method.lines s.method.code.code.size s' := by
  cases hline : op.line? with
  | none =>
    have honward := steady_run (steady_onward s.method.lines s.method.code.code.size) hline hrange
      ⟨rfl, Nat.le_refl _, h.limited⟩
    rw [hrun] at honward
    exact .inr ⟨rfl, honward⟩
  | some line =>
    cases op with
    | draft op => cases hline
    | build call =>
      obtain rfl := BuilderCall.eq_addLine hline
      cases hrun
      exact .inl ⟨line, rfl, rfl⟩

namespace Annotated

theorem step (h : Annotated done s) (hrange : op.InRange) (hrun : op.run.outcome s = (.ok (), s')) :
    Annotated (done ++ [op]) s' ∧ Retains s s' := by
  rcases run_cases h hrange hrun with ⟨line, hline, rfl⟩ | ⟨hline, honward⟩
  · obtain ⟨hlined, hlineAt⟩ := h.lined.pushLine line
    refine ⟨⟨h.limited, hlined, fun pc hpc => ?_⟩, Nat.le_refl _, fun pc hpc => ?_⟩
    · rw [lastLine_concat, hline, Option.some_or]
      exact (hlineAt pc).trans (if_pos hpc)
    · exact (hlineAt pc).trans (if_neg (Nat.not_le_of_lt hpc))
  · refine ⟨⟨honward.limited, ?_, fun pc hpc => ?_⟩, honward.size_le, fun pc _ => ?_⟩
    · rw [honward.lines]
      exact h.lined.mono honward.size_le
    · rw [lastLine_concat, hline, Option.none_or, honward.lines]
      exact h.current pc (Nat.le_trans honward.size_le hpc)
    · rw [honward.lines]

theorem run (h : Annotated done s) (hrange : ∀ op ∈ ops, op.InRange)
    (hrun : (ops.forM MethodOperation.run).outcome s = (.ok (), s')) :
    Annotated (done ++ ops) s' ∧ Retains s s' := by
  induction ops generalizing done s with
  | nil =>
    cases hrun
    rw [List.append_nil]
    exact ⟨h, Nat.le_refl _, fun _ _ => rfl⟩
  | cons op ops ih =>
    rw [List.forM] at hrun
    obtain ⟨_, middle, hop, hops⟩ := Step.bind_eq_ok.mp hrun
    obtain ⟨hmiddle, hfirst⟩ := h.step (hrange op List.mem_cons_self) hop
    obtain ⟨hend, hrest⟩ := ih hmiddle (fun op hop => hrange op (List.mem_cons_of_mem _ hop)) hops
    rw [List.append_assoc, List.singleton_append] at hend
    refine ⟨hend, Nat.le_trans hfirst.size_le hrest.size_le, fun pc hpc => ?_⟩
    rw [hrest.lineAt_eq pc (Nat.lt_of_lt_of_le hpc hfirst.size_le), hfirst.lineAt_eq pc hpc]

/-- Code that an operation appends is on the line that was given last before, also in the end. -/
theorem lineAt_written {after : List MethodOperation} {t : MethodBuilder} {pc : Nat}
    (h : Annotated done s) (hrange : ∀ other ∈ op :: after, other.InRange)
    (hop : op.run.outcome s = (.ok (), s'))
    (hafter : (after.forM MethodOperation.run).outcome s' = (.ok (), t))
    (hlo : s.method.code.code.size ≤ pc) (hhi : pc < s'.method.code.code.size) :
    pc < t.method.code.code.size ∧ lineAt t.method.lines pc = lastLine done := by
  have hfirst := hrange op List.mem_cons_self
  obtain ⟨hnext, _⟩ := h.step hfirst hop
  obtain ⟨_, hrest⟩ := hnext.run (fun other hother => hrange other (List.mem_cons_of_mem _ hother))
    hafter
  refine ⟨Nat.lt_of_lt_of_le hhi hrest.size_le, ?_⟩
  rw [hrest.lineAt_eq pc hhi, ← h.current pc hlo]
  rcases run_cases h hfirst hop with ⟨line, _, rfl⟩ | ⟨_, honward⟩
  · exact absurd hhi (Nat.not_lt_of_le hlo)
  · rw [honward.lines]

end Annotated

/-- A method that was just started has no lines. -/
lemma annotated_start {flags : MethodFlags} {name descriptor : String} {pool later : ConstantPool}
    {m : MethodBody} (h : (MethodBody.start flags name descriptor).outcome pool = (.ok m, later)) :
    Annotated [] ⟨m, later⟩ := by
  have hlines : m.lines = #[] := by
    rw [MethodBody.start] at h
    split at h
    · cases h
    obtain ⟨_, _, _, h⟩ := Step.bind_eq_ok.mp h
    obtain ⟨_, _, _, h⟩ := Step.bind_eq_ok.mp h
    simp only at h
    split at h
    · cases h
    · cases h
      rfl
  refine ⟨MethodBody.limited_start h, ?_, fun pc _ => ?_⟩
  · rw [hlines]
    exact ⟨.nil, fun _ hentry => by cases hentry⟩
  · rw [hlines]
    rfl

/-- Operations that all succeed can be cut at any of them. -/
lemma forM_eq_ok {before after : List MethodOperation} {s₁ s₂ t : MethodBuilder}
    (hbefore : (before.forM run).outcome s = (.ok (), s₁)) (hop : op.run.outcome s₁ = (.ok (), s₂))
    (hrun : ((before ++ op :: after).forM run).outcome s = (.ok (), t)) :
    (after.forM run).outcome s₂ = (.ok (), t) := by
  have happend : (before ++ op :: after).forM run =
      before.forM run >>= fun _ => op.run >>= fun _ => after.forM run := by
    simp only [List.forM_eq_forM, List.forM_append, List.forM_cons]
  rw [happend, Step.outcome_bind, hbefore] at hrun
  simp only [Step.outcome_bind, hop] at hrun
  exact hrun

/-- In a method that was written and closed without failure, the lines start one behind the other and
in the code. For each instruction the table tells the line that was given last before it was written,
and nothing if there was none. -/
theorem lineTable_tells_lastLine {flags : MethodFlags} {name descriptor : String}
    {pool₀ pool₁ later : ConstantPool} {m : MethodBody} {ops : List MethodOperation}
    {s : MethodBuilder} {scope : ClassScope} {version : Version} {method : Method}
    (hstart : (MethodBody.start flags name descriptor).outcome pool₀ = (.ok m, pool₁))
    (hrange : ∀ op ∈ ops, op.InRange)
    (hrun : (ops.forM run).outcome ⟨m, pool₁⟩ = (.ok (), s))
    (hclose : (s.method.close scope version).outcome s.pool = (.ok method, later)) :
    ∃ written body tables, method.attributes = [written] ∧ written.Says later (.code body) ∧
      List.Forall₂ (Attribute.Says later) body.attributes tables ∧
      (tables.filterMap AttributeBody.lines?).length ≤ 1 ∧
      (AttributeBody.lineTable tables).Pairwise (·.start < ·.start) ∧
      (∀ entry ∈ AttributeBody.lineTable tables, entry.start.toNat < body.code.size) ∧
      body.code.size = s.method.code.code.size ∧
      ∀ before op after s₁ s₂, ops = before ++ op :: after →
        (before.forM run).outcome ⟨m, pool₁⟩ = (.ok (), s₁) → op.run.outcome s₁ = (.ok (), s₂) →
        ∀ pc, s₁.method.code.code.size ≤ pc → pc < s₂.method.code.code.size →
          LineNumber.Tells (AttributeBody.lineTable tables) pc (lastLine before) := by
  have hbegin := annotated_start hstart
  obtain ⟨hend, _⟩ := hbegin.run hrange hrun
  obtain ⟨handlers, locals, mapped, _, attributes, written, hmapped, rfl, hsays, htables⟩ :=
    MethodBody.close_says hclose
  have hsize := MethodBody.size_mapCode hend.limited hmapped
  have hlength : mapped.method.code.size ≤ 65535 := hsize ▸ hend.limited.code
  refine ⟨written, _, _, rfl, hsays, htables, ?_⟩
  rw [MethodBody.filterMap_lines?_tables, MethodBody.lineTable_tables]
  refine ⟨by split <;> simp, MethodBody.ascending_lineNumbers hend.lined hlength,
    fun entry hentry => ((MethodBody.mem_lineNumbers hlength).mp hentry).2, hsize, ?_⟩
  rintro before op after s₁ s₂ rfl hbefore hop pc hlo hhi
  obtain ⟨hwritten, _⟩ := hbegin.run (fun op hop => hrange op (List.mem_append_left _ hop)) hbefore
  obtain ⟨hinside, hline⟩ := hwritten.lineAt_written
    (fun other hother => hrange other (List.mem_append_right _ hother)) hop
    (forM_eq_ok hbefore hop hrun) hlo hhi
  rw [List.nil_append] at hline
  rw [← hline]
  exact hend.lined.tells hlength (hsize ▸ hinside)

open MethodBuilder (plainMethod plainBuilder start_plainMethod)

/-- A line is replaced, given again, and replaced by the one before it; the last one has no code. -/
def revisedLines : List MethodOperation := [
  .draft (.emit .nop []),
  .build (.addLine 1),
  .build (.addLine 2),
  .build (.emit .nop []),
  .build (.addLine 2),
  .draft (.emit .nop []),
  .build (.addLine 3),
  .build (.addLine 2),
  .build (.emit .nop []),
  .build (.addLine 7),
  .build (.emit .returnVoid []),
  .build (.addLine 9)]

def revisedBuilder : MethodBuilder := ((revisedLines.forM run).outcome plainBuilder).2

/-- The builder when line 3 was replaced by line 2. -/
def replacedBuilder : MethodBuilder := (((revisedLines.take 8).forM run).outcome plainBuilder).2

theorem revisedLines_told :
    (MethodBody.start ⟨0x0009⟩ "f" "()V").outcome .empty = (.ok plainMethod, plainBuilder.pool) ∧
      (∀ op ∈ revisedLines, op.InRange) ∧
      (revisedLines.forM run).outcome plainBuilder = (.ok (), revisedBuilder) ∧
      ∃ method later written body tables,
        (revisedBuilder.method.close plainScope .java6).outcome revisedBuilder.pool =
          (.ok method, later) ∧
        method.attributes = [written] ∧ written.Says later (.code body) ∧
        List.Forall₂ (Attribute.Says later) body.attributes tables ∧ body.code.size = 5 ∧
        LineNumber.Tells (AttributeBody.lineTable tables) 0 none ∧
        LineNumber.Tells (AttributeBody.lineTable tables) 3 (some 2) := by
  have hrange : ∀ op ∈ revisedLines, op.InRange := by decide +kernel
  have hok : ((revisedLines.forM run).outcome plainBuilder).1 = .ok () ∧
      ((run (.draft (.emit .nop []))).outcome plainBuilder).1 = .ok () ∧
      (((revisedLines.take 8).forM run).outcome plainBuilder).1 = .ok () ∧
      ((run (.build (.emit .nop []))).outcome replacedBuilder).1 = .ok () := by
    decide +kernel
  have hsizes : revisedBuilder.method.code.code.size = 5 ∧
      plainBuilder.method.code.code.size ≤ 0 ∧
      0 < ((run (.draft (.emit .nop []))).outcome plainBuilder).2.method.code.code.size ∧
      replacedBuilder.method.code.code.size ≤ 3 ∧
      3 < ((run (.build (.emit .nop []))).outcome replacedBuilder).2.method.code.code.size := by
    decide +kernel
  have hclosed : ((revisedBuilder.method.close plainScope .java6).outcome
      revisedBuilder.pool).1.map (fun _ => ()) = .ok () := by
    decide +kernel
  obtain ⟨hall, hfirst, hbefore, hnext⟩ := hok
  obtain ⟨hsize, hfirstLo, hfirstHi, hlo, hhi⟩ := hsizes
  have hrun : (revisedLines.forM run).outcome plainBuilder = (.ok (), revisedBuilder) :=
    Prod.ext hall (by rw [revisedBuilder])
  have hreplaced : ((revisedLines.take 8).forM run).outcome plainBuilder = (.ok (), replacedBuilder) :=
    Prod.ext hbefore (by rw [replacedBuilder])
  have hpair : ∀ {op : MethodOperation} {s : MethodBuilder}, (op.run.outcome s).1 = .ok () →
      op.run.outcome s = (.ok (), (op.run.outcome s).2) := fun h => Prod.ext h rfl
  obtain ⟨method, later, hclose, _⟩ := Step.exists_of_map_eq_ok hclosed
  obtain ⟨written, body, tables, hone, hsays, htables, _, _, _, hlength, htells⟩ :=
    lineTable_tells_lastLine start_plainMethod hrange hrun hclose
  refine ⟨start_plainMethod, hrange, hrun, method, later, written, body, tables, hclose, hone, hsays,
    htables, hlength.trans hsize, ?_, ?_⟩
  · exact htells [] (.draft (.emit .nop [])) (revisedLines.drop 1) plainBuilder _ rfl rfl
      (hpair hfirst) 0 hfirstLo hfirstHi
  · exact htells (revisedLines.take 8) (.build (.emit .nop [])) (revisedLines.drop 9)
      replacedBuilder _ rfl hreplaced (hpair hnext) 3 hlo hhi

end MethodOperation
end ClassAssembly

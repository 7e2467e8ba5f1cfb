import ClassAssembly.Proofs.BlockPartition

/-! Cutting code into blocks. Code is rejected if control would enter it between instructions, and
is cut exactly where control enters or must have left otherwise. Halving finds the block that starts
at an offset and the one that an offset lies in. -/
namespace ClassAssembly
namespace BlockGraph

variable {code : Array UInt8} {facts : ControlFacts} {handlers : List ExceptionHandler}
  {g : BlockGraph} {instructions : List Nat}

/-- The blocks, in order, are the pieces of code from one cut to the next, and are found by their
offsets. Cuts are made at offset zero, at the targets of jumps and handlers, and at the recorded
starts of blocks. -/
structure Cuts (g : BlockGraph) (code : Array UInt8) (instructions : List Nat)
    (facts : ControlFacts) (handlers : List ExceptionHandler) : Prop where
  nonempty : ∀ b ∈ g.blocks, b.start < b.stop
  first : ∃ b, g.blocks[0]? = some b ∧ b.start = 0
  next : ∀ (i : Nat) (b b' : Block), g.blocks[i]? = some b → g.blocks[i + 1]? = some b' →
    b.stop = b'.start
  last : ∃ b, g.blocks.back? = some b ∧ b.stop = code.size
  starts : ∀ pc, (∃ b ∈ g.blocks, b.start = pc) ↔ pc < code.size ∧
    (pc = 0 ∨ pc ∈ facts.targets handlers ∨ pc ∈ facts.blockStarts)
  instruction : ∀ b ∈ g.blocks, b.start ∈ instructions
  targeted : ∀ b ∈ g.blocks, b.targeted = true ↔ b.start ∈ facts.targets handlers
  startingAt : ∀ (pc : Int) (i : Nat), g.startingAt? pc = some i ↔
    ∃ b, g.blocks[i]? = some b ∧ (b.start : Int) = pc
  covering : ∀ pc i : Nat, g.covering? pc = some i ↔
    ∃ b, g.blocks[i]? = some b ∧ b.start ≤ pc ∧ pc < b.stop
  covered : ∀ pc : Nat, (g.covering? pc).isSome = true ↔ pc < code.size

namespace Tiles

lemma startingAt?_eq_some_iff (h : g.Tiles code instructions) {pc : Int} {i : Nat} :
    g.startingAt? pc = some i ↔ ∃ b, g.blocks[i]? = some b ∧ (b.start : Int) = pc := by
  constructor
  · exact exists_of_startingAt?
  · rintro ⟨b, hb, rfl⟩
    exact startingAt?_of_start h hb

/-- The last block that starts at or before an offset ends after it. -/
lemma exists_block (h : g.Tiles code instructions) {pc : Nat} (hpc : pc < code.size) :
    ∃ (i : Nat) (b : Block), g.blocks[i]? = some b ∧ b.start ≤ pc ∧ pc < b.stop := by
  obtain ⟨hsize, hlow, hhigh⟩ := Search.upperBound_splits h.ascending pc
  obtain ⟨first, hfirst, hzero⟩ := h.first (by omega)
  obtain ⟨hpos, rfl⟩ := Array.getElem?_eq_some_iff.mp hfirst
  cases hn : Search.upperBound Block.start g.blocks pc with
  | zero =>
    have hlt := hhigh 0 hpos (by omega)
    omega
  | succ i =>
    have hi : i < g.blocks.size := by omega
    refine ⟨i, g.blocks[i], Array.getElem?_eq_getElem hi, hlow i hi (by omega), ?_⟩
    rcases h.next i _ (Array.getElem?_eq_getElem hi) with ⟨b', hb', hnext⟩ | ⟨_, hstop⟩
    · obtain ⟨hi', rfl⟩ := Array.getElem?_eq_some_iff.mp hb'
      have hlt := hhigh (i + 1) hi' (by omega)
      omega
    · omega

lemma covering?_eq_some_iff (h : g.Tiles code instructions) {pc i : Nat} :
    g.covering? pc = some i ↔ ∃ b, g.blocks[i]? = some b ∧ b.start ≤ pc ∧ pc < b.stop := by
  obtain ⟨hsize, hlow, hhigh⟩ := Search.upperBound_splits h.ascending pc
  constructor
  · intro hcovering
    unfold covering? at hcovering
    split at hcovering
    · cases hcovering
    · split at hcovering
      · rename_i hany
        cases hcovering
        cases hb : g.blocks[i]? with
        | none => simp [hb] at hany
        | some b => exact ⟨b, rfl, by simpa [hb, Block.contains] using hany⟩
      · cases hcovering
  · rintro ⟨b, hb, hlo, hhi⟩
    obtain ⟨hi, rfl⟩ := Array.getElem?_eq_some_iff.mp hb
    -- Blocks after this one start behind the offset, as this one ends there at the latest.
    have hn : Search.upperBound Block.start g.blocks pc = i + 1 := by
      rcases Nat.lt_trichotomy (Search.upperBound Block.start g.blocks pc) (i + 1) with
        hlt | heq | hgt
      · have hbehind := hhigh i hi (by omega)
        omega
      · exact heq
      · have hi' : i + 1 < g.blocks.size := by omega
        have hle := h.stop_le hb (Array.getElem?_eq_getElem hi') (Nat.lt_succ_self i)
        have hbefore := hlow (i + 1) hi' hgt
        omega
    simp [covering?, hn, hb, Block.contains, hlo, hhi]

lemma covering?_isSome_iff (h : g.Tiles code instructions) {pc : Nat} :
    (g.covering? pc).isSome = true ↔ pc < code.size := by
  rw [Option.isSome_iff_exists]
  constructor
  · rintro ⟨i, hi⟩
    obtain ⟨b, hb, _, hhi⟩ := h.covering?_eq_some_iff.mp hi
    have hbounds := h.bounds hb
    omega
  · intro hpc
    obtain ⟨i, b, hb⟩ := h.exists_block hpc
    exact ⟨i, h.covering?_eq_some_iff.mpr ⟨b, hb⟩⟩

lemma back_stop (h : g.Tiles code instructions) (hcode : 0 < code.size) :
    ∃ b, g.blocks.back? = some b ∧ b.stop = code.size := by
  obtain ⟨first, hfirst, _⟩ := h.first hcode
  have hpos := (Array.getElem?_eq_some_iff.mp hfirst).1
  have hlt : g.blocks.size - 1 < g.blocks.size := by omega
  refine ⟨g.blocks[g.blocks.size - 1], ?_, ?_⟩
  · rw [Array.back?, Array.getElem?_eq_getElem hlt]
  · rcases h.next _ _ (Array.getElem?_eq_getElem hlt) with ⟨b', hb', _⟩ | ⟨_, hstop⟩
    · have hbeyond := (Array.getElem?_eq_some_iff.mp hb').1
      omega
    · exact hstop

end Tiles

/-- Where nothing is rejected, a cut is made at each of the offsets that lies in the code. -/
lemma mem_starts_of_partition (h : partition code facts handlers = .ok g)
    (hwalk : Code.Walk code 0 instructions) {pc : Nat} :
    (∃ b ∈ g.blocks, b.start = pc) ↔ pc < code.size ∧
      (pc = 0 ∨ pc ∈ facts.targets handlers ∨ pc ∈ facts.blockStarts) := by
  have hmap : (∃ b ∈ g.blocks, b.start = pc) ↔ pc ∈ g.blocks.toList.map Block.start := by
    simp
  rw [hmap, map_start_of_partition h hwalk, List.mem_filter]
  simp only [List.cons_append, List.contains_eq_mem, List.mem_cons, List.mem_append,
    decide_eq_true_eq, Array.mem_toList_iff]
  constructor
  · rintro ⟨hmem, hcut⟩
    exact ⟨(hwalk.bounds pc hmem).2, hcut⟩
  · rintro ⟨hlt, hcut⟩
    refine ⟨?_, hcut⟩
    by_contra hastray
    rcases hcut with rfl | htarget | hstart
    · exact hastray (hwalk.head_mem hlt)
    · rcases List.mem_append.mp htarget with hjump | hhandler
      · obtain ⟨⟨source, target⟩, hmem, rfl⟩ := List.mem_map.mp hjump
        exact not_rejects_of_partition h hwalk (.jump (Array.mem_def.mpr hmem) (.inr hastray))
      · obtain ⟨handler, hmem, rfl⟩ := List.mem_map.mp hhandler
        exact not_rejects_of_partition h hwalk (.entry hmem hastray)
    · exact not_rejects_of_partition h hwalk (.blockStart hstart hlt hastray)

lemma cuts_of_partition (hcode : 0 < code.size) (h : partition code facts handlers = .ok g)
    (hwalk : Code.Walk code 0 instructions) : g.Cuts code instructions facts handlers := by
  obtain ⟨instructions', htiles⟩ := tiles_of_partition h
  obtain rfl : instructions' = instructions :=
    Except.ok.inj ((Code.starts_eq_ok_iff.mpr htiles.walk).symm.trans
      (Code.starts_eq_ok_iff.mpr hwalk))
  have hindex : ∀ b ∈ g.blocks, ∃ i, g.blocks[i]? = some b := fun b hb =>
    Array.mem_iff_getElem?.mp hb
  exact {
    nonempty := by
      intro b hb
      obtain ⟨i, hi⟩ := hindex b hb
      exact (htiles.bounds hi).1
    first := htiles.first hcode
    next := by
      intro i b b' hb hb'
      rcases htiles.next i b hb with ⟨next, hnext, hstart⟩ | ⟨hnone, _⟩
      · rw [hb'] at hnext
        cases hnext
        exact hstart.symm
      · rw [hb'] at hnone
        cases hnone
    last := htiles.back_stop hcode
    starts := fun _ => mem_starts_of_partition h hwalk
    instruction := by
      intro b hb
      obtain ⟨i, hi⟩ := hindex b hb
      exact htiles.start_mem i b hi
    targeted := fun _ hb => targeted_iff_of_partition h (Array.mem_def.mp hb)
    startingAt := fun _ _ => htiles.startingAt?_eq_some_iff
    covering := fun _ _ => htiles.covering?_eq_some_iff
    covered := fun _ => htiles.covering?_isSome_iff }

/-- Code that cannot be read is not cut. Other code is cut unless a jump, a handler or the start of
a block is astray, and the error names one that is. -/
theorem partition_cuts (hcode : 0 < code.size) :
    (∀ e, Code.starts code = .error e → partition code facts handlers = .error e) ∧
    ∀ instructions, Code.Walk code 0 instructions →
      ((∃ e, facts.Rejects handlers code.size instructions e) →
        ∃ e, partition code facts handlers = .error e ∧
          facts.Rejects handlers code.size instructions e) ∧
      ((∀ e, ¬facts.Rejects handlers code.size instructions e) →
        ∃ g, partition code facts handlers = .ok g ∧ g.Cuts code instructions facts handlers) := by
  refine ⟨fun _ => partition_of_starts_eq_error, fun instructions hwalk => ?_⟩
  cases hcut : partition code facts handlers with
  | error e =>
    have hrejects := rejects_of_partition hcut hwalk
    exact ⟨fun _ => ⟨e, rfl, hrejects⟩, fun hnone => absurd hrejects (hnone e)⟩
  | ok g =>
    constructor
    · rintro ⟨e, hrejects⟩
      exact absurd hrejects (not_rejects_of_partition hcut hwalk)
    · intro _
      exact ⟨g, rfl, cuts_of_partition hcode hcut hwalk⟩

/-- The sign of a number, with a handler at the nop. -/
def signCode : Array UInt8 :=
  #[0x1a, -- iload_0
    0x9e, 0, 7, -- ifle
    0x04, -- iconst_1
    0xa7, 0, 5, -- goto
    0x02, -- iconst_m1
    0x00, -- nop
    0xac] -- ireturn

/-- With an end of the code and an offset twice among the starts of blocks. -/
def signFacts : ControlFacts := ⟨#[(5, 10), (1, 8)], #[11, 8, 8]⟩

def signBlocks : BlockGraph where
  blocks := #[⟨0, 8, [2, 1, 3], false⟩, ⟨8, 9, [2], true⟩, ⟨9, 10, [3], true⟩, ⟨10, 11, [], true⟩]

theorem signBlocks_cuts :
    0 < signCode.size ∧
      partition signCode signFacts [⟨1, 8, 9, none⟩] = .ok signBlocks ∧
      signBlocks.Cuts signCode [0, 1, 4, 5, 8, 9, 10] signFacts [⟨1, 8, 9, none⟩] := by
  have hcut : partition signCode signFacts [⟨1, 8, 9, none⟩] = .ok signBlocks := by decide +kernel
  have hwalk : Code.Walk signCode 0 [0, 1, 4, 5, 8, 9, 10] :=
    Code.starts_eq_ok_iff.mp (by decide +kernel)
  have hcode : 0 < signCode.size := by decide
  obtain ⟨g, hg, hcuts⟩ := ((partition_cuts hcode).2 _ hwalk).2
    fun _ => not_rejects_of_partition hcut hwalk
  rw [hcut] at hg
  cases hg
  exact ⟨hcode, hcut, hcuts⟩

end BlockGraph
end ClassAssembly

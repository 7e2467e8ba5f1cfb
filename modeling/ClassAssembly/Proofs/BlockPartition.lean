import ClassAssembly.Block.Graph
import ClassAssembly.Proofs.CodeWalk
import ClassAssembly.Proofs.Search

/-! The blocks of some code lie end to end, and each starts and ends between instructions. -/
namespace ClassAssembly

/-- Offsets that a jump, a switch or an exception handler leads to. -/
def ControlFacts.targets (facts : ControlFacts) (handlers : List ExceptionHandler) : List Nat :=
  facts.jumps.toList.map (·.2.toNat) ++ handlers.map (·.handler.toNat)

/-- Why code whose instructions start at the given offsets is not cut into blocks: a jump leads out
of the code or into an instruction, a handler covers no range of whole instructions or is itself not
at one, or a block would start inside of an instruction. -/
inductive ControlFacts.Rejects (facts : ControlFacts) (handlers : List ExceptionHandler)
    (size : Nat) (instructions : List Nat) : Error → Prop
  | jump {source : Nat} {target : Int} (hmem : (source, target) ∈ facts.jumps)
      (h : target < 0 ∨ target.toNat ∉ instructions) :
      Rejects facts handlers size instructions (.invalidJumpTarget source target)
  | range {handler : ExceptionHandler} (hmem : handler ∈ handlers)
      (h : handler.stop.toNat ≤ handler.start.toNat ∨ size < handler.stop.toNat ∨
        handler.start.toNat ∉ instructions ∨
        (handler.stop.toNat < size ∧ handler.stop.toNat ∉ instructions)) :
      Rejects facts handlers size instructions
        (.invalidExceptionRange handler.start.toNat handler.stop.toNat)
  | entry {handler : ExceptionHandler} (hmem : handler ∈ handlers)
      (h : handler.handler.toNat ∉ instructions) :
      Rejects facts handlers size instructions
        (.invalidJumpTarget handler.start.toNat handler.handler.toNat)
  | blockStart {pc : Nat} (hmem : pc ∈ facts.blockStarts) (hlt : pc < size)
      (h : pc ∉ instructions) : Rejects facts handlers size instructions (.invalidJumpTarget pc pc)

/-- The offsets of the instructions are found by halving. -/
lemma Code.Walk.isSome_find?_iff {code : Array UInt8} {instructions : List Nat}
    (h : Code.Walk code 0 instructions) {pc : Nat} :
    (Search.find? id instructions.toArray pc).isSome = true ↔ pc ∈ instructions := by
  have hascending : Search.Ascending id instructions.toArray := .of_pairwise h.pairwise
  rw [Search.find?_isSome_iff hascending]
  simp

namespace BlockGraph

open ClassAssembly.Except (bind_eq_ok bind_eq_error exists_of_forM_eq_error exists_of_mapM_eq_error
  forall_of_forM)

/-- A block that is found at an offset starts there. -/
lemma exists_of_startingAt? {g : BlockGraph} {target : Int} {k : Nat}
    (h : g.startingAt? target = some k) :
    ∃ b, g.blocks[k]? = some b ∧ (b.start : Int) = target := by
  cases target with
  | negSucc n => cases h
  | ofNat n =>
    obtain ⟨b, hb, hstart⟩ := Search.exists_of_find?_eq_some h
    exact ⟨b, hb, congrArg Int.ofNat hstart⟩

/-- The blocks cut the code, whose instructions start at the given offsets, into pieces. -/
structure Tiles (g : BlockGraph) (code : Array UInt8) (instructions : List Nat) : Prop where
  walk : Code.Walk code 0 instructions
  ascending : Search.Ascending Block.start g.blocks
  start_mem : ∀ (i : Nat) (b : Block), g.blocks[i]? = some b → b.start ∈ instructions
  next : ∀ (i : Nat) (b : Block), g.blocks[i]? = some b →
    (∃ b', g.blocks[i + 1]? = some b' ∧ b'.start = b.stop) ∨
      g.blocks[i + 1]? = none ∧ b.stop = code.size
  first : 0 < code.size → ∃ b, g.blocks[0]? = some b ∧ b.start = 0

namespace Tiles

variable {g : BlockGraph} {code : Array UInt8} {instructions : List Nat}

lemma start_lt (h : g.Tiles code instructions) {i j : Nat} {b b' : Block}
    (hb : g.blocks[i]? = some b) (hb' : g.blocks[j]? = some b') (hij : i < j) :
    b.start < b'.start := by
  obtain ⟨hi, rfl⟩ := Array.getElem?_eq_some_iff.mp hb
  obtain ⟨hj, rfl⟩ := Array.getElem?_eq_some_iff.mp hb'
  exact h.ascending i j hi hj hij

lemma bounds (h : g.Tiles code instructions) {i : Nat} {b : Block} (hb : g.blocks[i]? = some b) :
    b.start < b.stop ∧ b.stop ≤ code.size := by
  have hstart := (h.walk.bounds _ (h.start_mem i b hb)).2
  rcases h.next i b hb with ⟨b', hb', hnext⟩ | ⟨_, hstop⟩
  · have hlt := h.start_lt hb hb' (Nat.lt_succ_self i)
    have hsize := (h.walk.bounds _ (h.start_mem _ b' hb')).2
    omega
  · omega

/-- A block ends before any later one starts. -/
lemma stop_le (h : g.Tiles code instructions) {i j : Nat} {b b' : Block}
    (hb : g.blocks[i]? = some b) (hb' : g.blocks[j]? = some b') (hij : i < j) :
    b.stop ≤ b'.start := by
  rcases h.next i b hb with ⟨next, hnext, hstart⟩ | ⟨hnone, _⟩
  · rcases Nat.lt_or_eq_of_le (Nat.succ_le_of_lt hij) with hlt | heq
    · have hle := h.start_lt hnext hb' hlt
      omega
    · have hsame : some next = some b' := by rw [← hnext, ← hb', ← heq]
      cases hsame
      omega
  · have hsize := (Array.getElem?_eq_some_iff.mp hb').1
    have hnone' := Array.getElem?_eq_none_iff.mp hnone
    omega

/-- An offset lies in at most one block. -/
lemma unique (h : g.Tiles code instructions) {i j pc : Nat} {b b' : Block}
    (hb : g.blocks[i]? = some b) (hb' : g.blocks[j]? = some b') (hpc : b.start ≤ pc ∧ pc < b.stop)
    (hpc' : b'.start ≤ pc ∧ pc < b'.stop) : i = j := by
  rcases Nat.lt_trichotomy i j with hlt | heq | hgt
  · have hle := h.stop_le hb hb' hlt
    omega
  · exact heq
  · have hle := h.stop_le hb' hb hgt
    omega

end Tiles

lemma startingAt?_of_start {g : BlockGraph} {code : Array UInt8} {instructions : List Nat}
    (htiles : g.Tiles code instructions) {k : Nat} {b : Block} (hb : g.blocks[k]? = some b) :
    g.startingAt? b.start = some k :=
  (Search.find?_eq_some_iff htiles.ascending).mpr ⟨b, hb, rfl⟩

lemma getElem?_zip_tail {xs : List Nat} {last i start stop : Nat}
    (h : (xs.zip (xs.tail ++ [last]))[i]? = some (start, stop)) :
    xs[i]? = some start ∧ (xs[i + 1]? = some stop ∨ xs[i + 1]? = none ∧ stop = last) := by
  obtain ⟨hstart, hstop⟩ := List.getElem?_zip_eq_some.mp h
  refine ⟨hstart, ?_⟩
  rcases Nat.lt_or_ge i xs.tail.length with hlt | hge
  · rw [List.getElem?_append_left hlt, List.getElem?_tail] at hstop
    exact Or.inl hstop
  · rw [List.getElem?_append_right hge] at hstop
    have hlast := List.mem_of_getElem? hstop
    rw [List.length_tail] at hge
    exact Or.inr ⟨List.getElem?_eq_none (by omega), List.mem_singleton.mp hlast⟩

/-- What a successful partition consists of, with the search for the successors of each block. -/
lemma partition_pieces {code : Array UInt8} {facts : ControlFacts} {handlers : List ExceptionHandler}
    {g : BlockGraph} (h : partition code facts handlers = .ok g) :
    ∃ instructions starts : List Nat, Code.starts code = .ok instructions ∧
      starts = instructions.filter (fun pc =>
        (0 :: facts.targets handlers ++ facts.blockStarts.toList).contains pc) ∧
      List.Forall₂ (fun piece b => (b.start = piece.1 ∧ b.stop = piece.2 ∧
          (b.targeted = true ↔ b.start ∈ facts.targets handlers)) ∧
        ∃ found, successorsFrom code handlers starts.toArray b.stop b.start true [] = .ok found ∧
          b.successors = found.eraseDups)
        (starts.zip (starts.tail ++ [code.size])) g.blocks.toList := by
  unfold partition at h
  obtain ⟨instructions, hinstructions, h⟩ := bind_eq_ok.mp h
  obtain ⟨_, _, h⟩ := bind_eq_ok.mp h
  obtain ⟨_, _, h⟩ := bind_eq_ok.mp h
  obtain ⟨_, _, h⟩ := bind_eq_ok.mp h
  obtain ⟨blocks, hblocks, heq⟩ := bind_eq_ok.mp h
  cases heq
  refine ⟨instructions, _, hinstructions, rfl, ?_⟩
  have hforall := Except.forall₂_of_mapM hblocks
  have hcontains : ∀ xs : List Nat, (Std.TreeSet.ofList xs).contains = fun pc => xs.contains pc :=
    fun xs => funext fun pc => Std.TreeSet.contains_ofList
  simp only [List.filter_toArray, hcontains] at hforall
  refine hforall.imp ?_
  rintro ⟨start, stop⟩ b hb
  obtain ⟨found, hfound, heq⟩ := bind_eq_ok.mp hb
  cases heq
  exact ⟨by simp [ControlFacts.targets], found, hfound, rfl⟩

/-- What a successful partition consists of. -/
lemma partition_eq_ok {code : Array UInt8} {facts : ControlFacts} {handlers : List ExceptionHandler}
    {g : BlockGraph} (h : partition code facts handlers = .ok g) :
    ∃ instructions starts : List Nat, Code.starts code = .ok instructions ∧
      starts = instructions.filter (fun pc =>
        (0 :: facts.targets handlers ++ facts.blockStarts.toList).contains pc) ∧
      List.Forall₂ (fun piece b => b.start = piece.1 ∧ b.stop = piece.2 ∧
        (b.targeted = true ↔ b.start ∈ facts.targets handlers))
        (starts.zip (starts.tail ++ [code.size])) g.blocks.toList := by
  obtain ⟨instructions, starts, hinstructions, hstarts, hblocks⟩ := partition_pieces h
  exact ⟨instructions, starts, hinstructions, hstarts, hblocks.imp fun _ _ hpiece => hpiece.1⟩

/-- The blocks start at the instructions that are cut at. -/
lemma map_start_of_partition {code : Array UInt8} {facts : ControlFacts}
    {handlers : List ExceptionHandler} {g : BlockGraph} {instructions : List Nat}
    (h : partition code facts handlers = .ok g) (hwalk : Code.Walk code 0 instructions) :
    g.blocks.toList.map Block.start = instructions.filter (fun pc =>
      (0 :: facts.targets handlers ++ facts.blockStarts.toList).contains pc) := by
  obtain ⟨instructions', starts, hinstructions, hstarts, hblocks⟩ := partition_eq_ok h
  rw [Code.starts_eq_ok_iff.mpr hwalk] at hinstructions
  cases hinstructions
  rw [← hstarts]
  have hfst : (starts.zip (starts.tail ++ [code.size])).map Prod.fst = starts := by
    apply List.map_fst_zip
    simp only [List.length_append, List.length_tail, List.length_singleton]
    omega
  have hsame : List.Forall₂ (· = ·) ((starts.zip (starts.tail ++ [code.size])).map Prod.fst)
      (g.blocks.toList.map Block.start) := by
    rw [List.forall₂_map_left_iff, List.forall₂_map_right_iff]
    exact hblocks.imp fun _ _ hpiece => hpiece.1.symm
  rw [hfst, List.forall₂_eq_eq_eq] at hsame
  exact hsame.symm

/-- What `partition` gives tiles the code. -/
theorem tiles_of_partition {code : Array UInt8} {facts : ControlFacts}
    {handlers : List ExceptionHandler} {g : BlockGraph}
    (h : partition code facts handlers = .ok g) : ∃ instructions, g.Tiles code instructions := by
  obtain ⟨instructions, starts, hinstructions, hstarts, hblocks⟩ := partition_eq_ok h
  have hwalk := Code.starts_eq_ok_iff.mp hinstructions
  have hsub : starts.Sublist instructions := by
    rw [hstarts]
    exact List.filter_sublist
  have hpiece : ∀ i b, g.blocks[i]? = some b → starts[i]? = some b.start ∧
      (starts[i + 1]? = some b.stop ∨ starts[i + 1]? = none ∧ b.stop = code.size) := by
    intro i b hb
    rw [← Array.getElem?_toList] at hb
    obtain ⟨⟨start, stop⟩, hpiece, hstart, hstop, _⟩ :=
      exists_of_forall₂ hblocks.flip hb
    rw [hstart, hstop]
    exact getElem?_zip_tail hpiece
  have hlength : g.blocks.size = starts.length := by
    rw [hstarts, ← map_start_of_partition h hwalk, List.length_map, Array.length_toList]
  refine ⟨instructions, hwalk, ?_, ?_, ?_, ?_⟩
  · have hpairwise := hwalk.pairwise.sublist hsub
    intro i j hi hj hij
    have hi' := (hpiece i _ (Array.getElem?_eq_getElem hi)).1
    have hj' := (hpiece j _ (Array.getElem?_eq_getElem hj)).1
    obtain ⟨hi'', heqi⟩ := List.getElem?_eq_some_iff.mp hi'
    obtain ⟨hj'', heqj⟩ := List.getElem?_eq_some_iff.mp hj'
    rw [← heqi, ← heqj]
    exact List.pairwise_iff_getElem.mp hpairwise i j hi'' hj'' hij
  · intro i b hb
    exact hsub.subset (List.mem_of_getElem? (hpiece i b hb).1)
  · intro i b hb
    obtain ⟨_, hnext | ⟨hnone, hstop⟩⟩ := hpiece i b hb
    · left
      have hi : i + 1 < g.blocks.size := by
        rw [hlength]
        exact (List.getElem?_eq_some_iff.mp hnext).1
      have hb' := (hpiece (i + 1) _ (Array.getElem?_eq_getElem hi)).1
      rw [hnext] at hb'
      exact ⟨_, Array.getElem?_eq_getElem hi, (Option.some.inj hb').symm⟩
    · right
      refine ⟨Array.getElem?_eq_none ?_, hstop⟩
      rw [hlength]
      exact List.getElem?_eq_none_iff.mp hnone
  · intro hsize
    have hzero : starts[0]? = some 0 := by
      rw [hstarts]
      cases hwalk with
      | stop hle => omega
      | step => simp
    have hpos : 0 < g.blocks.size := by
      rw [hlength]
      exact (List.getElem?_eq_some_iff.mp hzero).1
    have hb := (hpiece 0 _ (Array.getElem?_eq_getElem hpos)).1
    rw [hzero] at hb
    exact ⟨_, Array.getElem?_eq_getElem hpos, (Option.some.inj hb).symm⟩

/-- In code that can be read, the successors of each piece that starts at an instruction are
found. -/
lemma successorsFrom_ne_error {code : Array UInt8} {handlers : List ExceptionHandler}
    {starts : Array Nat} {stop pc : Nat} {falls : Bool} {before instructions : List Nat}
    (hwalk : Code.Walk code 0 instructions) (hstop : stop ≤ code.size)
    (hpc : pc ∈ instructions ∨ code.size ≤ pc) (e : Error) :
    successorsFrom code handlers starts stop pc falls before ≠ .error e := by
  obtain ⟨n, hn⟩ : ∃ n, stop - pc < n := ⟨_, Nat.lt_succ_self _⟩
  induction n generalizing pc falls before with
  | zero => omega
  | succ n ih =>
    rw [successorsFrom]
    split
    · obtain ⟨insn, hdecode, hnext, _⟩ := hwalk.next (hpc.resolve_right (by omega))
      obtain ⟨traits, htraits, targets, htargets⟩ := Code.exists_targets_of_decode hdecode
      have hpos := insn.length_pos
      rw [hdecode]
      simp only [htraits]
      change (Code.jumpTargets code pc insn traits.flow >>= _) ≠ .error e
      rw [htargets]
      exact ih hnext (by omega)
    · rintro ⟨⟩

/-- Code that cannot be read is not cut. -/
lemma partition_of_starts_eq_error {code : Array UInt8} {facts : ControlFacts}
    {handlers : List ExceptionHandler} {e : Error} (h : Code.starts code = .error e) :
    partition code facts handlers = .error e := by
  rw [partition, h]
  rfl

/-- Code that can be read is cut into blocks unless something about it is rejected. -/
theorem rejects_of_partition {code : Array UInt8} {facts : ControlFacts}
    {handlers : List ExceptionHandler} {instructions : List Nat} {e : Error}
    (h : partition code facts handlers = .error e) (hwalk : Code.Walk code 0 instructions) :
    facts.Rejects handlers code.size instructions e := by
  unfold partition at h
  rw [Code.starts_eq_ok_iff.mpr hwalk] at h
  rcases bind_eq_error.mp h with h | ⟨_, hinstructions, h⟩
  · cases h
  cases hinstructions
  simp only [hwalk.isSome_find?_iff] at h
  rcases bind_eq_error.mp h with h | ⟨_, _, h⟩
  · obtain ⟨⟨source, target⟩, hmem, h⟩ := exists_of_forM_eq_error h
    simp only at h
    split at h
    · cases h
    · cases h
      exact .jump (Array.mem_def.mpr hmem) (by grind)
  rcases bind_eq_error.mp h with h | ⟨_, _, h⟩
  · obtain ⟨handler, hmem, h⟩ := exists_of_forM_eq_error h
    simp only [checkHandler, hwalk.isSome_find?_iff] at h
    split at h
    · cases h
      exact .range hmem (by assumption)
    · split at h
      · cases h
      · cases h
        exact .entry hmem (by assumption)
  rcases bind_eq_error.mp h with h | ⟨_, _, h⟩
  · obtain ⟨pc, hmem, h⟩ := exists_of_forM_eq_error h
    split at h
    · rename_i hinside
      cases h
      exact .blockStart (Array.mem_def.mpr hmem) hinside.1 hinside.2
    · cases h
  rcases bind_eq_error.mp h with h | ⟨_, _, h⟩
  · -- Each piece starts at an instruction and ends at one or at the end of the code.
    obtain ⟨⟨start, stop⟩, hpiece, h⟩ := exists_of_mapM_eq_error h
    obtain ⟨i, hi⟩ := List.getElem?_of_mem hpiece
    obtain ⟨hstart, hnext⟩ := getElem?_zip_tail hi
    have hmem : ∀ {keep : Nat → Bool} {j pc : Nat},
        (instructions.toArray.filter keep).toList[j]? = some pc → pc ∈ instructions := by
      intro keep j pc hj
      have hfilter := List.mem_of_getElem? hj
      rw [Array.toList_filter] at hfilter
      exact (List.mem_filter.mp hfilter).1
    have hstop : stop ≤ code.size := by
      rcases hnext with hnext | ⟨_, rfl⟩
      · exact Nat.le_of_lt (hwalk.bounds stop (hmem hnext)).2
      · exact Nat.le_refl _
    rcases bind_eq_error.mp h with h | ⟨_, _, h⟩
    · exact absurd h (successorsFrom_ne_error hwalk hstop (.inl (hmem hstart)) e)
    · cases h
  · cases h

lemma partition_eq_error {code : Array UInt8} {facts : ControlFacts}
    {handlers : List ExceptionHandler} {e : Error} (h : partition code facts handlers = .error e) :
    Code.starts code = .error e ∨ (∃ source target, e = .invalidJumpTarget source target) ∨
      ∃ start stop, e = .invalidExceptionRange start stop := by
  cases hstarts : Code.starts code with
  | error e' =>
    rw [partition_of_starts_eq_error hstarts] at h
    cases h
    exact .inl rfl
  | ok instructions =>
    cases rejects_of_partition h (Code.starts_eq_ok_iff.mp hstarts) with
    | jump | entry | blockStart => exact .inr (.inl ⟨_, _, rfl⟩)
    | range => exact .inr (.inr ⟨_, _, rfl⟩)

/-- Nothing is rejected about code that is cut into blocks. -/
theorem not_rejects_of_partition {code : Array UInt8} {facts : ControlFacts}
    {handlers : List ExceptionHandler} {g : BlockGraph} {instructions : List Nat} {e : Error}
    (h : partition code facts handlers = .ok g) (hwalk : Code.Walk code 0 instructions) :
    ¬facts.Rejects handlers code.size instructions e := by
  unfold partition at h
  obtain ⟨instructions', hinstructions, h⟩ := bind_eq_ok.mp h
  rw [Code.starts_eq_ok_iff.mpr hwalk] at hinstructions
  cases hinstructions
  simp only [hwalk.isSome_find?_iff] at h
  obtain ⟨_, hjumps, h⟩ := bind_eq_ok.mp h
  obtain ⟨_, hhandlers, h⟩ := bind_eq_ok.mp h
  obtain ⟨_, hblockStarts, _⟩ := bind_eq_ok.mp h
  have hhandler : ∀ handler ∈ handlers, ¬(handler.stop.toNat ≤ handler.start.toNat ∨
      code.size < handler.stop.toNat ∨ handler.start.toNat ∉ instructions ∨
      (handler.stop.toNat < code.size ∧ handler.stop.toNat ∉ instructions)) ∧
      handler.handler.toNat ∈ instructions := by
    intro handler hmem
    have hcheck := forall_of_forM hhandlers handler hmem
    simp only [checkHandler, hwalk.isSome_find?_iff] at hcheck
    split at hcheck
    · cases hcheck
    · split at hcheck
      · exact ⟨by assumption, by assumption⟩
      · cases hcheck
  intro hrejects
  cases hrejects with
  | @jump source target hmem hastray =>
    have hcheck := forall_of_forM hjumps (source, target) (Array.mem_def.mp hmem)
    simp only at hcheck
    split at hcheck
    · grind
    · cases hcheck
  | range hmem hastray => exact (hhandler _ hmem).1 hastray
  | entry hmem hastray => exact hastray (hhandler _ hmem).2
  | @blockStart pc hmem hlt hastray =>
    have hcheck := forall_of_forM hblockStarts pc (Array.mem_def.mp hmem)
    rw [if_pos ⟨hlt, hastray⟩] at hcheck
    cases hcheck

lemma targeted_iff_of_partition {code : Array UInt8} {facts : ControlFacts}
    {handlers : List ExceptionHandler} {g : BlockGraph} (h : partition code facts handlers = .ok g)
    {b : Block} (hb : b ∈ g.blocks.toList) :
    b.targeted = true ↔ b.start ∈ facts.targets handlers := by
  obtain ⟨_, _, _, _, hblocks⟩ := partition_eq_ok h
  obtain ⟨i, hi⟩ := List.getElem?_of_mem hb
  obtain ⟨_, _, _, _, htargeted⟩ := exists_of_forall₂ hblocks.flip hi
  exact htargeted

end BlockGraph
end ClassAssembly

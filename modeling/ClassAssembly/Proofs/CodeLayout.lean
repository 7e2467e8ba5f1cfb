import ClassAssembly.Code.Switch
import ClassAssembly.Proofs.CodeBytes

/-! Code as instructions laid end to end. Branches and switches may be redirected in place: each edit
stays within one instruction, keeps its length, and leaves all others as they are. -/
namespace ClassAssembly

/-- A way out of a switch. -/
inductive SwitchArm where
  | default
  | case (index : Nat)
deriving DecidableEq

namespace SwitchArm

/-- Offset of the word that holds the distance. -/
def slot (start : Nat) : SwitchArm → Nat
  | default => start + 1 + Code.padding start
  | case index => start + 1 + Code.padding start + 12 + 4 * index

lemma slot_apart {start : Nat} {arm other : SwitchArm} (h : other ≠ arm) :
    other.slot start + 4 ≤ arm.slot start ∨ arm.slot start + 4 ≤ other.slot start := by
  cases arm with
  | default =>
    cases other with
    | default => exact absurd rfl h
    | case other =>
      right
      simp only [slot]
      omega
  | case index =>
    cases other with
    | default =>
      left
      simp only [slot]
      omega
    | case other =>
      have hne : other ≠ index := fun heq => h (congrArg case heq)
      simp only [slot]
      omega

end SwitchArm

namespace TableSwitch

def distance (table : TableSwitch) : SwitchArm → Option Int
  | .default => some table.default
  | .case index => table.offsets[index]?

/-- The switch with another distance on one arm. -/
def redirect (table : TableSwitch) (arm : SwitchArm) (distance : Int) : TableSwitch :=
  match arm with
  | .default => { table with default := distance }
  | .case index => { table with offsets := table.offsets.set index distance }

lemma distance_redirect_self {table : TableSwitch} {arm : SwitchArm} {distance : Int}
    (h : (table.distance arm).isSome) :
    (table.redirect arm distance).distance arm = some distance := by
  cases arm with
  | default => rfl
  | case index =>
    have hlt : index < table.offsets.length := by simpa [TableSwitch.distance] using h
    exact List.getElem?_set_self hlt

lemma distance_redirect_of_ne {table : TableSwitch} {arm other : SwitchArm} {distance : Int}
    (h : other ≠ arm) : (table.redirect arm distance).distance other = table.distance other := by
  cases arm with
  | default =>
    cases other with
    | default => exact absurd rfl h
    | case _ => rfl
  | case index =>
    cases other with
    | default => rfl
    | case other =>
      exact List.getElem?_set_ne fun heq => h (congrArg SwitchArm.case heq.symm)

@[simp] lemma low_redirect (table : TableSwitch) (arm : SwitchArm) (distance : Int) :
    (table.redirect arm distance).low = table.low := by
  cases arm <;> rfl

@[simp] lemma high_redirect (table : TableSwitch) (arm : SwitchArm) (distance : Int) :
    (table.redirect arm distance).high = table.high := by
  cases arm <;> rfl

@[simp] lemma length_redirect (table : TableSwitch) (arm : SwitchArm) (distance : Int) :
    (table.redirect arm distance).length = table.length := by
  cases arm <;> rfl

@[simp] lemma length_offsets_redirect (table : TableSwitch) (arm : SwitchArm) (distance : Int) :
    (table.redirect arm distance).offsets.length = table.offsets.length := by
  cases arm with
  | default => rfl
  | case index => exact List.length_set

/-- The words of the switch stand in the code after an opcode at `pc`. -/
structure At (table : TableSwitch) (code : Array UInt8) (pc : Nat) : Prop where
  low : Code.readSigned code 4 (pc + 1 + Code.padding pc + 4) = .ok table.low
  high : Code.readSigned code 4 (pc + 1 + Code.padding pc + 8) = .ok table.high
  ordered : table.low ≤ table.high
  count : table.offsets.length = (table.high - table.low + 1).toNat
  length : table.length = 1 + Code.padding pc + 12 + 4 * table.offsets.length
  arms : ∀ arm distance, table.distance arm = some distance →
    Code.readSigned code 4 (arm.slot pc) = .ok distance

end TableSwitch

namespace Code

open ClassAssembly.Except (bind_eq_ok)
open CodeDraft (write)

variable {code code' : Array UInt8} {pc : Nat}

lemma readWords_eq_ok_iff {n offset : Nat} {before words : List Int} :
    readWords code n offset before = .ok words ↔
      ∃ rest, words = before.reverse ++ rest ∧ rest.length = n ∧
        ∀ i word, rest[i]? = some word → readSigned code 4 (offset + 4 * i) = .ok word := by
  induction n generalizing offset before with
  | zero =>
    rw [readWords]
    constructor
    · intro h
      cases h
      exact ⟨[], by simp⟩
    · rintro ⟨rest, rfl, hlength, _⟩
      rw [List.length_eq_zero_iff.mp hlength, List.append_nil]
  | succ n ih =>
    rw [readWords]
    constructor
    · intro h
      split at h
      · cases h
      · rename_i word hword
        obtain ⟨rest, rfl, hlength, hrest⟩ := ih.mp h
        refine ⟨word :: rest, by simp, by simp [hlength], ?_⟩
        intro i other hother
        cases i with
        | zero =>
          cases hother
          exact hword
        | succ i =>
          have hread := hrest i other hother
          rwa [Nat.add_assoc, show 4 + 4 * i = 4 * (i + 1) by omega] at hread
    · rintro ⟨rest, rfl, hlength, hrest⟩
      cases rest with
      | nil => cases hlength
      | cons word rest =>
        rw [show readSigned code 4 offset = .ok word from hrest 0 word rfl]
        refine ih.mpr ⟨rest, by simp, by simpa using hlength, ?_⟩
        intro i other hother
        rw [Nat.add_assoc, show 4 + 4 * i = 4 * (i + 1) by omega]
        exact hrest (i + 1) other hother

/-- A switch decodes to the words that stand in the code. -/
theorem decodeSwitch_eq_ok_iff {table : TableSwitch} :
    decodeSwitch code pc = .ok table ↔ table.At code pc := by
  constructor
  · intro h
    obtain ⟨default, hdefault, h⟩ := bind_eq_ok.mp h
    obtain ⟨low, hlow, h⟩ := bind_eq_ok.mp h
    obtain ⟨high, hhigh, h⟩ := bind_eq_ok.mp h
    split at h
    · cases h
    · rename_i hle
      obtain ⟨offsets, hoffsets, heq⟩ := bind_eq_ok.mp h
      cases heq
      obtain ⟨rest, rfl, hlength, hrest⟩ := readWords_eq_ok_iff.mp hoffsets
      refine ⟨hlow, hhigh, by simpa using hle, hlength, by simp [hlength], ?_⟩
      intro arm distance harm
      cases arm with
      | default =>
        cases harm
        exact hdefault
      | case index => exact hrest index distance harm
  · rintro ⟨hlow, hhigh, hordered, hcount, hlength, harms⟩
    obtain ⟨default, low, high, offsets, length, hpos⟩ := table
    simp only at hlow hhigh hordered hcount hlength
    refine bind_eq_ok.mpr ⟨default, harms .default default rfl, bind_eq_ok.mpr
      ⟨low, hlow, bind_eq_ok.mpr ⟨high, hhigh, ?_⟩⟩⟩
    rw [if_neg (by omega)]
    refine bind_eq_ok.mpr ⟨offsets, readWords_eq_ok_iff.mpr
      ⟨offsets, rfl, hcount, fun i word hword => harms (.case i) word hword⟩, ?_⟩
    rw [hcount] at hlength
    subst hlength
    rfl

/-- From `pc` to `stop` the code is made of instructions that start at these offsets. -/
inductive Tiles (code : Array UInt8) : Nat → List Nat → Nat → Prop
  | nil (pc : Nat) : Tiles code pc [] pc
  | cons {pc stop : Nat} {insn : Instruction} {starts : List Nat}
      (hdecode : decode code pc = .ok insn) (hrest : Tiles code (pc + insn.length) starts stop) :
      Tiles code pc (pc :: starts) stop

namespace Tiles

variable {starts : List Nat} {stop q r : Nat} {insn : Instruction}

lemma walk (h : Tiles code pc starts stop) (hstop : code.size ≤ stop) : Walk code pc starts := by
  induction h with
  | nil => exact .stop hstop
  | cons hdecode _ ih => exact .step (lt_of_decode hdecode) hdecode (ih hstop)

lemma snoc (h : Tiles code pc starts stop) (hdecode : decode code stop = .ok insn) :
    Tiles code pc (starts ++ [stop]) (stop + insn.length) := by
  induction h with
  | nil pc => exact .cons hdecode (.nil _)
  | cons hfirst _ ih => exact .cons hfirst (ih hdecode)

/-- The instructions may change so long as they keep their lengths. -/
lemma congr (h : Tiles code pc starts stop)
    (hkeep : ∀ q ∈ starts, ∀ insn, decode code q = .ok insn →
      ∃ insn', decode code' q = .ok insn' ∧ insn'.length = insn.length) :
    Tiles code' pc starts stop := by
  induction h with
  | nil pc => exact .nil pc
  | cons hdecode _ ih =>
    obtain ⟨insn', hdecode', hlength⟩ := hkeep _ List.mem_cons_self _ hdecode
    refine .cons hdecode' ?_
    rw [hlength]
    exact ih fun q hq => hkeep q (List.mem_cons_of_mem _ hq)

lemma start_le (h : Tiles code pc starts stop) (hq : q ∈ starts) : pc ≤ q := by
  induction h with
  | nil => cases hq
  | cons _ _ ih =>
    rcases List.mem_cons.mp hq with rfl | hq
    · exact Nat.le_refl _
    · have hle := ih hq
      omega

lemma le_stop (h : Tiles code pc starts stop) : pc ≤ stop := by
  induction h with
  | nil => exact Nat.le_refl _
  | cons _ _ ih => omega

lemma end_le (h : Tiles code pc starts stop) (hq : q ∈ starts) (hdecode : decode code q = .ok insn) :
    q + insn.length ≤ stop := by
  induction h with
  | nil => cases hq
  | cons hfirst hrest ih =>
    rcases List.mem_cons.mp hq with rfl | hq
    · rw [hfirst] at hdecode
      cases hdecode
      exact hrest.le_stop
    · exact ih hq

/-- Two instructions share no byte. -/
lemma apart (h : Tiles code pc starts stop) (hq : q ∈ starts) (hr : r ∈ starts) (hlt : q < r)
    (hdecode : decode code q = .ok insn) : q + insn.length ≤ r := by
  induction h with
  | nil => cases hq
  | @cons pc _ _ _ hfirst hrest ih =>
    rcases List.mem_cons.mp hq with rfl | hq'
    · rw [hfirst] at hdecode
      cases hdecode
      rcases List.mem_cons.mp hr with rfl | hr'
      · omega
      · exact hrest.start_le hr'
    · have hle := hrest.start_le hq'
      rcases List.mem_cons.mp hr with rfl | hr'
      · omega
      · exact ih hq' hr'

end Tiles

/-- The instruction at an offset has the same bytes in both codes. -/
def Keeps (code code' : Array UInt8) (pc : Nat) : Prop :=
  ∀ insn, decode code pc = .ok insn → SameBytes code code' pc (pc + insn.length)

lemma Keeps.trans {code'' : Array UInt8} (h : Keeps code code' pc) (h' : Keeps code' code'' pc) :
    Keeps code code'' pc := by
  intro insn hdecode i hlo hhi
  have hsame := h insn hdecode
  rw [h' insn (decode_congr hdecode hsame) i hlo hhi, hsame i hlo hhi]

/-- The instruction at an offset has this opcode and these operands. -/
def DecodesTo (code : Array UInt8) (pc : Nat) (op : Opcode) (operands : List Int) : Prop :=
  ∃ insn, decode code pc = .ok insn ∧ insn.Spells op operands

lemma DecodesTo.of_keeps {op : Opcode} {operands : List Int} (h : DecodesTo code pc op operands)
    (hkeeps : Keeps code code' pc) : DecodesTo code' pc op operands := by
  obtain ⟨insn, hdecode, hspells⟩ := h
  exact ⟨insn, decode_congr hdecode (hkeeps insn hdecode), hspells⟩

/-- A write within one instruction keeps the others. -/
lemma Tiles.keeps_write {starts : List Nat} {stop q offset : Nat} {insn : Instruction}
    {bytes : Bytes} (h : Tiles code pc starts stop) (hq : q ∈ starts)
    (hdecode : decode code q = .ok insn) (hlo : q ≤ offset)
    (hhi : offset + bytes.length ≤ q + insn.length) {r : Nat} (hr : r ∈ starts) (hne : r ≠ q) :
    Keeps code (write code offset bytes) r := by
  intro other hother
  refine sameBytes_write ?_
  rcases Nat.lt_or_gt_of_ne hne with hlt | hgt
  · have hapart := h.apart hr hq hlt hother
    omega
  · have hapart := h.apart hq hr hgt hdecode
    omega

/-- A write within one instruction that keeps its length keeps the layout. -/
lemma Tiles.write_within {starts : List Nat} {q offset : Nat} {insn insn' : Instruction}
    {bytes : Bytes} (h : Tiles code 0 starts code.size) (hq : q ∈ starts)
    (hdecode : decode code q = .ok insn) (hlo : q ≤ offset)
    (hhi : offset + bytes.length ≤ q + insn.length)
    (hdecode' : decode (write code offset bytes) q = .ok insn')
    (hlength : insn'.length = insn.length) :
    Tiles (write code offset bytes) 0 starts (write code offset bytes).size := by
  rw [CodeDraft.size_write]
  refine h.congr fun r hr other hother => ?_
  by_cases heq : r = q
  · subst heq
    rw [hdecode] at hother
    cases hother
    exact ⟨insn', hdecode', hlength⟩
  · have hkeeps := h.keeps_write hq hdecode hlo hhi hr heq
    exact ⟨other, decode_congr hother (hkeeps other hother), rfl⟩

/-- A branch over some distance stands at `pc`. -/
structure BranchAt (code : Array UInt8) (pc : Nat) (op : Opcode) (distance : Int) : Prop where
  branch : ∃ traits, op.traits = .ok traits ∧ traits.form = .branch
  fits : -32768 ≤ distance ∧ distance ≤ 32767
  bytes : Holds code pc (op.byte :: Bytes.signed 2 distance)

namespace BranchAt

variable {op : Opcode} {distance : Int}

lemma decode_eq (h : BranchAt code pc op distance) :
    decode code pc = .ok ⟨op, 3, false, distance, 0, by decide⟩ := by
  obtain ⟨⟨traits, htraits, hform⟩, ⟨hlo, hhi⟩, hbytes⟩ := h
  exact decode_signed htraits (by rw [hform]; rfl) hbytes (by omega) (by omega)

lemma of_keeps (h : BranchAt code pc op distance) (hkeeps : Keeps code code' pc) :
    BranchAt code' pc op distance := by
  refine ⟨h.branch, h.fits, holds_of_getElem? fun i hi => ?_⟩
  rw [hkeeps _ h.decode_eq (pc + i) (by omega) (by simpa using hi)]
  exact h.bytes.getElem? hi

lemma redirect (h : BranchAt code pc op distance) {distance' : Int}
    (hfits : -32768 ≤ distance' ∧ distance' ≤ 32767) (hend : pc + 3 ≤ code.size) :
    BranchAt (write code (pc + 1) (Bytes.signed 2 distance')) pc op distance' := by
  refine ⟨h.branch, hfits, ?_, holds_write (by rw [Bytes.length_signed]; omega)⟩
  rw [getElem?_write, if_neg (by omega)]
  exact h.bytes.1

end BranchAt

/-- The branches at these offsets have come to lead to `target`, and nothing else has changed. -/
structure Redirects (code code' : Array UInt8) (starts sources : List Nat) (target : Nat) :
    Prop where
  size : code'.size = code.size
  tiles : Tiles code' 0 starts code'.size
  keeps : ∀ q ∈ starts, q ∉ sources → Keeps code code' q
  sent : ∀ s ∈ sources, ∀ op distance, BranchAt code s op distance →
    BranchAt code' s op ((target : Int) - s)

namespace Redirects

variable {starts sources : List Nat} {target source : Nat}

lemma branchAt (h : Redirects code code' starts sources target) {s : Nat} (hs : s ∈ starts)
    {op : Opcode} {distance : Int} (hbranch : BranchAt code s op distance) :
    ∃ distance', BranchAt code' s op distance' := by
  by_cases hmem : s ∈ sources
  · exact ⟨_, h.sent s hmem op distance hbranch⟩
  · exact ⟨distance, hbranch.of_keeps (h.keeps s hs hmem)⟩

lemma one {op : Opcode} {distance : Int} (h : Tiles code 0 starts code.size)
    (hsource : source ∈ starts) (hbranch : BranchAt code source op distance)
    (hfits : -32768 ≤ (target : Int) - source ∧ (target : Int) - source ≤ 32767) :
    Redirects code (write code (source + 1) (Bytes.signed 2 ((target : Int) - source))) starts
      [source] target := by
  have hdecode := hbranch.decode_eq
  have hend := h.end_le hsource hdecode
  have hlength := Bytes.length_signed 2 ((target : Int) - source)
  have hhi : source + 1 + (Bytes.signed 2 ((target : Int) - source)).length ≤ source + 3 := by
    omega
  refine ⟨CodeDraft.size_write _ _ _, ?_, fun q hq hne => ?_, fun s hs op' distance' hbranch' => ?_⟩
  · exact h.write_within hsource hdecode (Nat.le_succ _) hhi
      (hbranch.redirect hfits hend).decode_eq rfl
  · exact h.keeps_write hsource hdecode (Nat.le_succ _) hhi hq (by simpa using hne)
  · obtain rfl := List.mem_singleton.mp hs
    exact hbranch'.redirect hfits hend

lemma cons {code'' : Array UInt8} (h : Redirects code code' starts [source] target)
    (h' : Redirects code' code'' starts sources target) (hsubset : source :: sources ⊆ starts) :
    Redirects code code'' starts (source :: sources) target := by
  refine ⟨h'.size.trans h.size, h'.tiles, fun q hq hnot => ?_, fun s hs op distance hbranch => ?_⟩
  · rw [List.mem_cons, not_or] at hnot
    exact (h.keeps q hq (by simpa using hnot.1)).trans (h'.keeps q hq hnot.2)
  · by_cases hlater : s ∈ sources
    · obtain ⟨distance', hbranch'⟩ := h.branchAt (hsubset hs) hbranch
      exact h'.sent s hlater op distance' hbranch'
    · obtain rfl := (List.mem_cons.mp hs).resolve_right hlater
      exact (h.sent s List.mem_cons_self op distance hbranch).of_keeps
        (h'.keeps s (hsubset hs) hlater)

end Redirects

/-- The code once the branches at these offsets lead to `target`. -/
def redirected (code : Array UInt8) (target : Nat) (sources : List Nat) : Array UInt8 :=
  sources.foldl (fun code source =>
    write code (source + 1) (Bytes.signed 2 ((target : Int) - source))) code

theorem Tiles.redirected {starts sources : List Nat} {target : Nat}
    (h : Tiles code 0 starts code.size)
    (hsources : ∀ s ∈ sources, s ∈ starts ∧ ∃ op distance, BranchAt code s op distance)
    (hfits : ∀ s ∈ sources, -32768 ≤ (target : Int) - s ∧ (target : Int) - s ≤ 32767) :
    Redirects code (redirected code target sources) starts sources target := by
  induction sources generalizing code with
  | nil => exact ⟨rfl, h, fun _ _ _ _ _ _ _ _ => rfl, nofun⟩
  | cons source rest ih =>
    obtain ⟨hsource, op, distance, hbranch⟩ := hsources source List.mem_cons_self
    have hone := Redirects.one h hsource hbranch (hfits source List.mem_cons_self)
    refine hone.cons (ih hone.tiles (fun s hs => ?_) fun s hs =>
      hfits s (List.mem_cons_of_mem _ hs)) fun s hs => (hsources s hs).1
    obtain ⟨hmem, op', distance', hbranch'⟩ := hsources s (List.mem_cons_of_mem _ hs)
    exact ⟨hmem, op', hone.branchAt hmem hbranch'⟩

/-- A switch stands at `pc`. -/
structure SwitchAt (code : Array UInt8) (pc : Nat) (table : TableSwitch) : Prop where
  byte : code[pc]? = some Opcode.tableswitch.byte
  table : table.At code pc

namespace SwitchAt

variable {table : TableSwitch}

lemma decode_eq (h : SwitchAt code pc table) : decode code pc =
    .ok ⟨.tableswitch, table.length, false, table.low, table.high, table.length_pos⟩ := by
  have htraits : Opcode.tableswitch.traits =
      .ok ⟨"TABLESWITCH", .switch, some (-1), .switch, .fixed [.int] none⟩ := by decide +kernel
  rw [decode_of_byte h.byte htraits]
  exact bind_eq_ok.mpr ⟨table, decodeSwitch_eq_ok_iff.mpr h.table, rfl⟩

lemma of_keeps (h : SwitchAt code pc table) (hkeeps : Keeps code code' pc) :
    SwitchAt code' pc table := by
  have hsame := hkeeps _ h.decode_eq
  have hpos := table.length_pos
  refine ⟨?_, ?_⟩
  · rw [hsame pc (Nat.le_refl _) (Nat.lt_add_of_pos_right hpos)]
    exact h.byte
  · exact decodeSwitch_eq_ok_iff.mp
      (decodeSwitch_congr (decodeSwitch_eq_ok_iff.mpr h.table) hsame)

lemma slot_bounds (h : SwitchAt code pc table) {arm : SwitchArm}
    (harm : (table.distance arm).isSome) :
    pc + 1 ≤ arm.slot pc ∧ arm.slot pc + 4 ≤ pc + table.length := by
  have hlength := h.table.length
  cases arm with
  | default =>
    rw [SwitchArm.slot]
    omega
  | case index =>
    have hlt : index < table.offsets.length := by simpa [TableSwitch.distance] using harm
    rw [SwitchArm.slot]
    omega

lemma redirect (h : SwitchAt code pc table) {arm : SwitchArm} (distance : Int)
    (harm : (table.distance arm).isSome) (hend : pc + table.length ≤ code.size)
    (hlo : -2147483648 ≤ distance) (hhi : distance ≤ 2147483647) :
    SwitchAt (write code (arm.slot pc) (Bytes.signed 4 distance)) pc
      (table.redirect arm distance) := by
  obtain ⟨hlo', hhi'⟩ := h.slot_bounds harm
  have hsame : ∀ lo, lo + 4 ≤ arm.slot pc ∨ arm.slot pc + 4 ≤ lo →
      readSigned (write code (arm.slot pc) (Bytes.signed 4 distance)) 4 lo = readSigned code 4 lo := by
    intro lo hlo
    refine (sameBytes_write ?_).readSigned (Nat.le_refl lo) (Nat.le_refl _)
    rwa [Bytes.length_signed]
  refine ⟨?_, ⟨?_, ?_, ?_, ?_, ?_, fun other distance' hother => ?_⟩⟩
  · rw [getElem?_write, if_neg (by omega)]
    exact h.byte
  · rw [hsame _ (by cases arm <;> simp only [SwitchArm.slot] <;> omega), TableSwitch.low_redirect]
    exact h.table.low
  · rw [hsame _ (by cases arm <;> simp only [SwitchArm.slot] <;> omega), TableSwitch.high_redirect]
    exact h.table.high
  · simpa using h.table.ordered
  · simpa using h.table.count
  · simpa using h.table.length
  · by_cases heq : other = arm
    · subst heq
      rw [TableSwitch.distance_redirect_self harm] at hother
      cases hother
      exact readSigned_of_holds (holds_write (by rw [Bytes.length_signed]; omega)) (by omega)
        (by omega)
    · rw [TableSwitch.distance_redirect_of_ne heq] at hother
      rw [hsame _ (SwitchArm.slot_apart heq), h.table.arms other distance' hother]

end SwitchAt

/-- Redirecting one arm of a switch changes its distance and nothing else. -/
theorem Tiles.redirectArm {starts : List Nat} {table : TableSwitch} {arm : SwitchArm}
    {distance : Int} (h : Tiles code 0 starts code.size) (hpc : pc ∈ starts)
    (hswitch : SwitchAt code pc table) (harm : (table.distance arm).isSome)
    (hlo : -2147483648 ≤ distance) (hhi : distance ≤ 2147483647) :
    Tiles (write code (arm.slot pc) (Bytes.signed 4 distance)) 0 starts code.size ∧
      (∀ q ∈ starts, q ≠ pc → Keeps code (write code (arm.slot pc) (Bytes.signed 4 distance)) q) ∧
      SwitchAt (write code (arm.slot pc) (Bytes.signed 4 distance)) pc
        (table.redirect arm distance) := by
  have hdecode := hswitch.decode_eq
  have hnew := hswitch.redirect distance harm (h.end_le hpc hdecode) hlo hhi
  obtain ⟨hstart, hend⟩ := hswitch.slot_bounds harm
  have hwritten : arm.slot pc + (Bytes.signed 4 distance).length ≤ pc + table.length := by
    rwa [Bytes.length_signed]
  refine ⟨?_, fun q hq hne => h.keeps_write hpc hdecode (by omega) hwritten hq hne, hnew⟩
  have htiles := h.write_within hpc hdecode (by omega) hwritten hnew.decode_eq
    (TableSwitch.length_redirect _ _ _)
  rwa [CodeDraft.size_write] at htiles

lemma readSigned_zero {offset : Nat} (h : ∀ i, i < 4 → code[offset + i]? = some 0) :
    readSigned code 4 offset = .ok 0 := by
  refine readSigned_of_holds (holds_of_getElem? fun i hi => ?_) (by decide) (by decide)
  rw [Bytes.length_signed] at hi
  rw [h i hi, show Bytes.signed 4 0 = List.replicate 4 0 by decide,
    List.getElem?_replicate_of_lt hi]

/-- A switch as it is laid out, with all its arms leading back to itself. -/
def reservedSwitch (start : Nat) (low high : Int) : TableSwitch where
  default := 0
  low := low
  high := high
  offsets := List.replicate (high - low + 1).toNat 0
  length := 4 * (high - low + 1).toNat + 13 + padding start
  length_pos := by omega

/-- The bytes of a switch as it is laid out. -/
def reservedBytes (start : Nat) (low high : Int) : Bytes :=
  Opcode.tableswitch.byte :: List.replicate (padding start + 4) 0 ++ Bytes.signed 4 low ++
    Bytes.signed 4 high ++ List.replicate (4 * (high - low + 1).toNat) 0

lemma length_reservedBytes (start : Nat) (low high : Int) :
    (reservedBytes start low high).length = (reservedSwitch start low high).length := by
  simp only [reservedBytes, reservedSwitch, List.length_append, List.length_cons,
    List.length_replicate, Bytes.length_signed]
  omega

lemma switchAt_reservedSwitch {low high : Int} (hle : low ≤ high) (hlow : -2147483648 ≤ low)
    (hhigh : high ≤ 2147483647) (h : Holds code pc (reservedBytes pc low high)) :
    SwitchAt code pc (reservedSwitch pc low high) := by
  obtain ⟨h, hcases⟩ := holds_append.mp h
  obtain ⟨h, hhigh'⟩ := holds_append.mp h
  obtain ⟨⟨hbyte, hzeros⟩, hlow'⟩ := holds_append.mp h
  simp only [List.length_append, List.length_cons, List.length_replicate, Bytes.length_signed]
    at hcases hhigh' hlow'
  refine ⟨hbyte, ⟨?_, ?_, hle, List.length_replicate, ?_, fun arm distance harm => ?_⟩⟩
  · refine readSigned_of_holds ?_ (by simp [reservedSwitch]; omega) (by simp [reservedSwitch]; omega)
    rwa [show pc + 1 + padding pc + 4 = pc + (padding pc + 4 + 1) by omega]
  · refine readSigned_of_holds ?_ (by simp [reservedSwitch]; omega) (by simp [reservedSwitch]; omega)
    rwa [show pc + 1 + padding pc + 8 = pc + (padding pc + 4 + 1 + 4) by omega]
  · simp only [reservedSwitch, List.length_replicate]
    omega
  · cases arm with
    | default =>
      cases harm
      refine readSigned_zero fun i hi => ?_
      have hzero := hzeros.getElem? (i := padding pc + i) (by rw [List.length_replicate]; omega)
      rwa [List.getElem?_replicate_of_lt (by omega), ← Nat.add_assoc] at hzero
    | case index =>
      obtain ⟨hlt, hdistance⟩ := List.getElem?_eq_some_iff.mp harm
      simp only [reservedSwitch, List.length_replicate, List.getElem_replicate] at hlt hdistance
      subst hdistance
      refine readSigned_zero fun i hi => ?_
      have hzero := hcases.getElem? (i := 4 * index + i) (by rw [List.length_replicate]; omega)
      rw [List.getElem?_replicate_of_lt (by omega)] at hzero
      rw [← hzero]
      congr 1
      simp only [SwitchArm.slot]
      omega

end Code
end ClassAssembly

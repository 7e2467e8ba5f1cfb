import ClassAssembly.Proofs.PoolGrowth

/-! Runs of requests to a constant pool, of which any may fail. An index that was given out stands
for its request from then on, and for no other one. -/
namespace ClassAssembly

namespace OffsetTable

variable {α : Type} [Width α]

lemma bounds_of_mem {t : OffsetTable α} (hfits : t.extent < UInt64.size) {entry : UInt64 × α}
    (h : entry ∈ t.entries) :
    t.first.toNat ≤ entry.1.toNat ∧ entry.1.toNat + width entry.2 ≤ t.extent :=
  t.tiled.bounds hfits entry h.val

/-- No element starts inside another one. -/
lemma apart_of_lt {t : OffsetTable α} (hfits : t.extent < UInt64.size) {a b : UInt64 × α}
    (ha : a ∈ t.entries) (hb : b ∈ t.entries) (h : a.1.toNat < b.1.toNat) :
    a.1.toNat + width a.2 ≤ b.1.toNat := by
  obtain ⟨i, hi, rfl⟩ := Array.mem_iff_getElem.mp ha
  obtain ⟨j, hj, rfl⟩ := Array.mem_iff_getElem.mp hb
  have hpairwise := List.pairwise_iff_getElem.mp (t.tiled.pairwise hfits)
  rcases Nat.lt_trichotomy i j with hlt | rfl | hlt
  · exact hpairwise i j hi hj hlt
  · exact absurd h (Nat.lt_irrefl _)
  · have hback : (t.entries[j].1.toNat + width t.entries[j].2 ≤ t.entries[i].1.toNat) :=
      hpairwise j i hj hi hlt
    omega

end OffsetTable

/-- What can be asked of a constant pool. -/
inductive ConstantRequest where
  | utf8 (text : String)
  | classRef (name : String)
  | stringRef (text : String)
  | integer (value : Int32)
  | float (bits : UInt32)
  | long (value : Int64)
  | double (bits : UInt64)
  | nameAndType (name descriptor : String)
  | fieldRef (owner name descriptor : String)
  | methodRef (owner name descriptor : String) (interface : Bool)
deriving DecidableEq

namespace ConstantRequest

def issue : ConstantRequest → Step ConstantPool PoolIndex
  | utf8 text => ConstantPool.utf8 text
  | classRef name => ConstantPool.classRef name
  | stringRef text => ConstantPool.stringRef text
  | integer value => ConstantPool.intern (.integer value)
  | float bits => ConstantPool.intern (.float bits)
  | long value => ConstantPool.intern (.long value)
  | double bits => ConstantPool.intern (.double bits)
  | nameAndType name descriptor => ConstantPool.nameAndType name descriptor
  | fieldRef owner name descriptor => ConstantPool.fieldRef owner name descriptor
  | methodRef owner name descriptor interface =>
    ConstantPool.methodRef owner name descriptor interface

/-- The same request with the name of the class in internal form. Two requests ask for the same
thing if they agree in this form. -/
def canonical : ConstantRequest → ConstantRequest
  | classRef name => classRef (ClassName.canonical name)
  | fieldRef owner name descriptor => fieldRef (ClassName.canonical owner) name descriptor
  | methodRef owner name descriptor interface =>
    methodRef (ClassName.canonical owner) name descriptor interface
  | request => request

/-- The texts that have to be in the pool for a request. -/
def texts : ConstantRequest → List String
  | utf8 text | stringRef text => [text]
  | classRef name => [ClassName.canonical name]
  | nameAndType name descriptor => [name, descriptor]
  | fieldRef owner name descriptor | methodRef owner name descriptor _ =>
    [ClassName.canonical owner, name, descriptor]
  | _ => []

end ConstantRequest

namespace ConstantPool

/-- What the constant at an index stands for, with its parts looked up. -/
def resolve? (pool : ConstantPool) (i : PoolIndex) : Option ConstantRequest := do
  match ← pool.get? i with
  | .utf8 _ => (pool.text? i).map .utf8
  | .classRef _ => (pool.className? i).map .classRef
  | .stringRef text => (pool.text? text).map .stringRef
  | .integer value => some (.integer value)
  | .float bits => some (.float bits)
  | .long value => some (.long value)
  | .double bits => some (.double bits)
  | .nameAndType name descriptor =>
    return .nameAndType (← pool.text? name) (← pool.text? descriptor)
  | .fieldRef _ _ =>
    (pool.memberRef? i).map fun ref => .fieldRef ref.ownerName ref.name ref.descriptor
  | .methodRef _ _ _ =>
    (pool.memberRef? i).map fun ref => .methodRef ref.ownerName ref.name ref.descriptor ref.interface

/-- The constant at an index stands for a request, all the way down to the texts. -/
inductive Holds (pool : ConstantPool) : PoolIndex → ConstantRequest → Prop
  | utf8 {i text} (h : pool.get? i = some (.utf8 text)) : Holds pool i (.utf8 text)
  | classRef {i k name} (h : pool.get? i = some (.classRef k)) (hname : Holds pool k (.utf8 name)) :
    Holds pool i (.classRef name)
  | stringRef {i k text} (h : pool.get? i = some (.stringRef k))
    (htext : Holds pool k (.utf8 text)) : Holds pool i (.stringRef text)
  | integer {i value} (h : pool.get? i = some (.integer value)) : Holds pool i (.integer value)
  | float {i bits} (h : pool.get? i = some (.float bits)) : Holds pool i (.float bits)
  | long {i value} (h : pool.get? i = some (.long value)) : Holds pool i (.long value)
  | double {i bits} (h : pool.get? i = some (.double bits)) : Holds pool i (.double bits)
  | nameAndType {i k l name descriptor} (h : pool.get? i = some (.nameAndType k l))
    (hname : Holds pool k (.utf8 name)) (hdescriptor : Holds pool l (.utf8 descriptor)) :
    Holds pool i (.nameAndType name descriptor)
  | fieldRef {i k l owner name descriptor} (h : pool.get? i = some (.fieldRef k l))
    (howner : Holds pool k (.classRef owner)) (htype : Holds pool l (.nameAndType name descriptor)) :
    Holds pool i (.fieldRef owner name descriptor)
  | methodRef {i k l owner name descriptor interface}
    (h : pool.get? i = some (.methodRef k l interface))
    (howner : Holds pool k (.classRef owner)) (htype : Holds pool l (.nameAndType name descriptor)) :
    Holds pool i (.methodRef owner name descriptor interface)

namespace Holds

variable {pool later : ConstantPool} {i j : PoolIndex} {request : ConstantRequest}

theorem mono (hext : pool.Extends later) (h : pool.Holds i request) : later.Holds i request := by
  induction h with
  | utf8 h => exact .utf8 (hext _ _ h)
  | integer h => exact .integer (hext _ _ h)
  | float h => exact .float (hext _ _ h)
  | long h => exact .long (hext _ _ h)
  | double h => exact .double (hext _ _ h)
  | classRef h _ ih => exact .classRef (hext _ _ h) ih
  | stringRef h _ ih => exact .stringRef (hext _ _ h) ih
  | nameAndType h _ _ ih ih' => exact .nameAndType (hext _ _ h) ih ih'
  | fieldRef h _ _ ih ih' => exact .fieldRef (hext _ _ h) ih ih'
  | methodRef h _ _ ih ih' => exact .methodRef (hext _ _ h) ih ih'

lemma index_unique {c : Constant} (hi : pool.get? i = some c) (hj : pool.get? j = some c) :
    i = j := by
  rw [get?_eq_some_iff] at hi hj
  rw [hi] at hj
  exact Option.some.inj hj

/-- One request stands at one index only. By induction: its parts stand at one index each, so the
constant is the same one. -/
theorem unique (hi : pool.Holds i request) (hj : pool.Holds j request) : i = j := by
  induction hi generalizing j with
  | utf8 h | integer h | float h | long h | double h =>
    cases hj
    exact index_unique h (by assumption)
  | classRef h _ ih | stringRef h _ ih =>
    cases hj
    rename_i h' hpart
    obtain rfl := ih hpart
    exact index_unique h h'
  | nameAndType h _ _ ih ih' | fieldRef h _ _ ih ih' =>
    cases hj
    rename_i h' hpart hpart'
    obtain rfl := ih hpart
    obtain rfl := ih' hpart'
    exact index_unique h h'
  | methodRef h _ _ ih ih' =>
    cases hj
    rename_i hpart hpart' h'
    obtain rfl := ih hpart
    obtain rfl := ih' hpart'
    exact index_unique h h'

lemma text?_eq {text : String} (h : pool.Holds i (.utf8 text)) : pool.text? i = some text := by
  cases h with
  | utf8 h => rw [text?, h]

lemma className?_eq {name : String} (h : pool.Holds i (.classRef name)) :
    pool.className? i = some name := by
  cases h with
  | classRef h hname => simpa [className?, h] using hname.text?_eq

/-- What stands at an index is found there by looking its parts up. -/
theorem resolve?_eq (h : pool.Holds i request) : pool.resolve? i = some request := by
  cases h with
  | utf8 h => simp [resolve?, text?, h]
  | integer h | float h | long h | double h => simp [resolve?, h]
  | classRef h hname => simp [resolve?, className?, h, hname.text?_eq]
  | stringRef h htext => simp [resolve?, h, htext.text?_eq]
  | nameAndType h hname hdescriptor => simp [resolve?, h, hname.text?_eq, hdescriptor.text?_eq]
  | fieldRef h howner htype | methodRef h howner htype =>
    cases htype with
    | nameAndType h' hname hdescriptor =>
      simp [resolve?, memberRef?, h, h', howner.className?_eq, hname.text?_eq,
        hdescriptor.text?_eq]

end Holds

/-- Why a request is refused: one of its texts is too long, or the pool has no room left. -/
inductive Refused (texts : List String) (pool : ConstantPool) : Error → Prop
  | text {text} (hmem : text ∈ texts) (hlong : 65535 < ModifiedUtf8.length text) :
    Refused texts pool (.limit (.textTooLong (ModifiedUtf8.length text)))
  | room (hfull : 65534 ≤ pool.next) :
    Refused texts pool (.limit (.constantPoolFull pool.next))

/-- A step that only adds constants, whether it succeeds or not, and fails for want of room or for
one of the given texts. -/
structure Adds (texts : List String) {α : Type} (step : Step ConstantPool α) : Prop where
  grows : ∀ {pool pool' result}, step.outcome pool = (result, pool') → pool.Extends pool'
  refused : ∀ {pool pool' e}, step.outcome pool = (.error e, pool') → Refused texts pool' e

namespace Adds

variable {α β : Type} {texts : List String}

theorem pure (a : α) : Adds texts (pure a : Step ConstantPool α) where
  grows h := by
    cases h
    exact .refl _
  refused h := by cases h

theorem bind {step : Step ConstantPool α} {next : α → Step ConstantPool β} (hs : Adds texts step)
    (hn : ∀ a, Adds texts (next a)) : Adds texts (step >>= next) where
  grows {pool pool' result} h := by
    rw [Step.outcome_bind] at h
    rcases hstep : step.outcome pool with ⟨e | a, middle⟩ <;> simp only [hstep] at h
    · cases h
      exact hs.grows hstep
    · exact (hs.grows hstep).trans ((hn a).grows h)
  refused {pool pool' e} h := by
    rw [Step.outcome_bind] at h
    rcases hstep : step.outcome pool with ⟨e | a, middle⟩ <;> simp only [hstep] at h
    · cases h
      exact hs.refused hstep
    · exact (hn a).refused h

theorem intern {c : Constant} (htext : c.textOrEmpty ∈ texts ∨ c.textOrEmpty = "") :
    Adds texts (intern c) where
  grows {pool pool' result} h := by
    cases result with
    | ok i => exact (extends_of_intern h).1
    | error e =>
      simp only [ConstantPool.intern, Step.outcome_ofOutcome] at h
      repeat' split at h
      all_goals
        cases h
        try exact .refl _
  refused {pool pool' e} h := by
    simp only [ConstantPool.intern, Step.outcome_ofOutcome] at h
    split at h
    · cases h
    split at h
    · rename_i hlong
      cases h
      rcases htext with hmem | hempty
      · exact .text hmem hlong
      · rw [Constant.textLength, hempty] at hlong
        exact absurd hlong (by decide)
    split at h
    · rename_i hroom
      cases h
      have hwidth := width_le c
      exact .room (by omega)
    · cases h

theorem utf8 {text : String} (h : text ∈ texts) : Adds texts (utf8 text) := intern (.inl h)

theorem classRef {name : String} (h : ClassName.canonical name ∈ texts) :
    Adds texts (classRef name) :=
  (utf8 h).bind fun _ => intern (.inr rfl)

theorem nameAndType {name descriptor : String} (hname : name ∈ texts)
    (hdescriptor : descriptor ∈ texts) : Adds texts (nameAndType name descriptor) :=
  (utf8 hname).bind fun _ => (utf8 hdescriptor).bind fun _ => intern (.inr rfl)

theorem issue (request : ConstantRequest) : Adds request.texts request.issue := by
  cases request with
  | utf8 text => exact utf8 (by simp [ConstantRequest.texts])
  | classRef name => exact classRef (by simp [ConstantRequest.texts])
  | stringRef text =>
    exact (utf8 (by simp [ConstantRequest.texts])).bind fun _ => intern (.inr rfl)
  | integer value | float value | long value | double value => exact intern (.inr rfl)
  | nameAndType name descriptor =>
    exact nameAndType (by simp [ConstantRequest.texts]) (by simp [ConstantRequest.texts])
  | fieldRef owner name descriptor | methodRef owner name descriptor interface =>
    exact (classRef (by simp [ConstantRequest.texts])).bind fun _ =>
      (nameAndType (by simp [ConstantRequest.texts]) (by simp [ConstantRequest.texts])).bind
        fun _ => intern (.inr rfl)

end Adds

section Success

variable {pool pool' : ConstantPool} {i : PoolIndex} {owner name descriptor text : String}

lemma holds_of_utf8 (h : (utf8 text).outcome pool = (.ok i, pool')) : pool'.Holds i (.utf8 text) :=
  .utf8 (extends_of_intern h).2

lemma holds_of_classRef (h : (classRef name).outcome pool = (.ok i, pool')) :
    pool'.Holds i (.classRef (ClassName.canonical name)) := by
  obtain ⟨k, middle, htext, hclass⟩ := Step.bind_eq_ok.mp h
  obtain ⟨hext, hi⟩ := extends_of_intern hclass
  exact .classRef hi ((holds_of_utf8 htext).mono hext)

lemma holds_of_stringRef (h : (stringRef text).outcome pool = (.ok i, pool')) :
    pool'.Holds i (.stringRef text) := by
  obtain ⟨k, middle, htext, hstring⟩ := Step.bind_eq_ok.mp h
  obtain ⟨hext, hi⟩ := extends_of_intern hstring
  exact .stringRef hi ((holds_of_utf8 htext).mono hext)

lemma holds_of_nameAndType (h : (nameAndType name descriptor).outcome pool = (.ok i, pool')) :
    pool'.Holds i (.nameAndType name descriptor) := by
  obtain ⟨k, first, hname, h⟩ := Step.bind_eq_ok.mp h
  obtain ⟨l, second, hdescriptor, hpair⟩ := Step.bind_eq_ok.mp h
  obtain ⟨hext, hi⟩ := extends_of_intern hpair
  have hsecond := (extends_of_intern hdescriptor).1
  exact .nameAndType hi (((holds_of_utf8 hname).mono hsecond).mono hext)
    ((holds_of_utf8 hdescriptor).mono hext)

/-- The two parts of a reference to a field or method. -/
lemma holds_of_member {make : PoolIndex → PoolIndex → Constant}
    (h : (do
        let owner ← classRef owner
        let nameAndType ← nameAndType name descriptor
        intern (make owner nameAndType) : Step ConstantPool PoolIndex).outcome pool =
      (.ok i, pool')) :
    ∃ k l, pool'.get? i = some (make k l) ∧
      pool'.Holds k (.classRef (ClassName.canonical owner)) ∧
      pool'.Holds l (.nameAndType name descriptor) := by
  obtain ⟨k, first, howner, h⟩ := Step.bind_eq_ok.mp h
  obtain ⟨l, second, htype, href⟩ := Step.bind_eq_ok.mp h
  obtain ⟨hext, hi⟩ := extends_of_intern href
  have hadds : Adds [name, descriptor] (nameAndType name descriptor) :=
    .nameAndType (by simp) (by simp)
  have hsecond : first.Extends second := hadds.grows htype
  exact ⟨k, l, hi, ((holds_of_classRef howner).mono hsecond).mono hext,
    (holds_of_nameAndType htype).mono hext⟩

/-- A request that succeeds gives the index at which it stands. -/
theorem holds_of_issue {request : ConstantRequest}
    (h : request.issue.outcome pool = (.ok i, pool')) : pool'.Holds i request.canonical := by
  cases request with
  | utf8 text => exact holds_of_utf8 h
  | classRef name => exact holds_of_classRef h
  | stringRef text => exact holds_of_stringRef h
  | integer value => exact .integer (extends_of_intern h).2
  | float bits => exact .float (extends_of_intern h).2
  | long value => exact .long (extends_of_intern h).2
  | double bits => exact .double (extends_of_intern h).2
  | nameAndType name descriptor => exact holds_of_nameAndType h
  | fieldRef owner name descriptor =>
    obtain ⟨k, l, hi, howner, htype⟩ := holds_of_member h
    exact .fieldRef hi howner htype
  | methodRef owner name descriptor interface =>
    obtain ⟨k, l, hi, howner, htype⟩ := holds_of_member h
    exact .methodRef hi howner htype

end Success

section Indices

variable {pool : ConstantPool} {i j : PoolIndex} {c : Constant}

lemma bounds_of_get? (h : pool.get? i = some c) : 1 ≤ i.toNat ∧ i.toNat + width c ≤ 65535 := by
  rw [get?, OffsetTable.get?_eq_some_iff pool.fits fun _ _ => width_pos _] at h
  obtain ⟨hlow, hhigh⟩ := OffsetTable.bounds_of_mem pool.fits h
  rw [pool.first_eq, UInt16.toNat_toUInt64] at hlow
  rw [UInt16.toNat_toUInt64] at hhigh
  exact ⟨hlow, Nat.le_trans hhigh pool.extent_le⟩

/-- The second index of a wide constant is no index of a constant. -/
lemma get?_succ_of_wide (h : pool.get? i = some c) (hwide : width c = 2) :
    pool.get? (i + 1) = none := by
  obtain ⟨_, hle⟩ := bounds_of_get? h
  have hnext : (i + 1).toNat = i.toNat + 1 := by
    rw [UInt16.toNat_add]
    exact Nat.mod_eq_of_lt (by simp only [UInt16.toNat_one]; omega)
  cases hd : pool.get? (i + 1) with
  | none => rfl
  | some d =>
    rw [get?, OffsetTable.get?_eq_some_iff pool.fits fun _ _ => width_pos _] at h hd
    have hapart := OffsetTable.apart_of_lt pool.fits h hd
    simp only [UInt16.toNat_toUInt64, hnext] at hapart
    omega

/-- No constant is stored twice. -/
lemma nodup_entries (pool : ConstantPool) : pool.entries.toList.Nodup := by
  have hindex : ∀ entry ∈ pool.entries.entries.toList, ∃ i : PoolIndex,
      pool.index[entry.2]? = some i ∧ i.toUInt64 = entry.1 := by
    intro entry hentry
    have hle := (OffsetTable.bounds_of_mem pool.fits ⟨hentry⟩).2
    have hbound : entry.1.toNat < 65536 :=
      Nat.lt_succ_of_le (Nat.le_trans (Nat.le_of_add_right_le hle) pool.extent_le)
    have hsame : (UInt16.ofNat entry.1.toNat).toUInt64 = entry.1 := by
      rw [← UInt64.toNat_inj, UInt16.toNat_toUInt64, UInt16.toNat_ofNat_of_lt' hbound]
    exact ⟨_, (pool.index_iff _ _).mpr (hsame.symm ▸ ⟨hentry⟩), hsame⟩
  refine List.pairwise_map.mpr ((pool.entries.tiled.pairwise pool.fits).imp_of_mem ?_)
  intro a b ha hb hapart heq
  obtain ⟨i, hi, hia⟩ := hindex a ha
  obtain ⟨j, hj, hjb⟩ := hindex b hb
  rw [heq, hj, Option.some.injEq] at hi
  rw [← hia, ← hjb, hi] at hapart
  have hpos := width_pos a.2
  omega

end Indices

/-- The pool after a run of requests. One that fails does not stop those after it. -/
def after (requests : List ConstantRequest) : ConstantPool :=
  requests.foldl (fun pool request => (request.issue.outcome pool).2) .empty

/-- In a run of requests, one of them has this answer and leaves this pool. -/
def Answered (requests : List ConstantRequest) (request : ConstantRequest)
    (answer : Except Error PoolIndex) (pool : ConstantPool) : Prop :=
  ∃ earlier later, requests = earlier ++ request :: later ∧
    request.issue.outcome (after earlier) = (answer, pool)

section Runs

variable {requests : List ConstantRequest} {request : ConstantRequest} {pool : ConstantPool}
  {i : PoolIndex}

lemma extends_foldl (requests : List ConstantRequest) (pool : ConstantPool) :
    pool.Extends (requests.foldl (fun pool request => (request.issue.outcome pool).2) pool) := by
  induction requests generalizing pool with
  | nil => exact .refl pool
  | cons request requests ih =>
    rw [List.foldl_cons]
    exact ((Adds.issue request).grows rfl).trans (ih _)

/-- What a request leaves stays to the end of the run. -/
lemma Answered.extends {answer : Except Error PoolIndex}
    (h : Answered requests request answer pool) : pool.Extends (after requests) := by
  obtain ⟨earlier, later, rfl, hissue⟩ := h
  have hpool : pool = (request.issue.outcome (after earlier)).2 := by rw [hissue]
  rw [after, List.foldl_append, List.foldl_cons, hpool]
  exact extends_foldl later _

/-- Where an answered request stands right after it, and to the end of the run. -/
lemma Answered.holds (h : Answered requests request (.ok i) pool) :
    pool.Holds i request.canonical ∧ (after requests).Holds i request.canonical := by
  have hext := h.extends
  obtain ⟨earlier, later, rfl, hissue⟩ := h
  have hholds := holds_of_issue hissue
  exact ⟨hholds, hholds.mono hext⟩

lemma Holds.get?_isSome (h : pool.Holds i request) : ∃ c, pool.get? i = some c := by
  cases h <;> exact ⟨_, by assumption⟩

/-- Over a whole run of requests, each failure names its cause; each answer is an index at which the
request stands, then and to the end; two answers are the same index exactly if the requests ask for
the same thing; and the pool stores nothing twice, skips the index after a wide constant and keeps
within its bound. -/
theorem answers_stand (requests : List ConstantRequest) :
    (∀ request e pool, Answered requests request (.error e) pool → Refused request.texts pool e) ∧
    (∀ request i pool, Answered requests request (.ok i) pool →
      1 ≤ i.toNat ∧ i.toNat ≤ 65534 ∧ pool.resolve? i = some request.canonical ∧
        (after requests).resolve? i = some request.canonical) ∧
    (∀ request i pool other j pool', Answered requests request (.ok i) pool →
      Answered requests other (.ok j) pool' → (i = j ↔ request.canonical = other.canonical)) ∧
    (after requests).entries.toList.Nodup ∧
    (∀ i c, (after requests).get? i = some c → width c = 2 →
      (after requests).get? (i + 1) = none ∧
        ∀ request pool, ¬ Answered requests request (.ok (i + 1)) pool) ∧
    (after requests).next = (after requests).entries.extent ∧ (after requests).next ≤ 65535 := by
  refine ⟨?_, ?_, ?_, nodup_entries _, ?_, (after requests).next_eq, (after requests).next_le⟩
  · rintro request e pool ⟨earlier, later, -, hissue⟩
    exact (Adds.issue request).refused hissue
  · intro request i pool hanswer
    obtain ⟨hnow, hend⟩ := hanswer.holds
    obtain ⟨c, hc⟩ := hnow.get?_isSome
    obtain ⟨hpos, hle⟩ := bounds_of_get? hc
    have hwidth := width_pos c
    exact ⟨hpos, by omega, hnow.resolve?_eq, hend.resolve?_eq⟩
  · intro request i pool other j pool' hi hj
    have hi := hi.holds.2
    have hj := hj.holds.2
    constructor
    · rintro rfl
      apply Option.some.inj
      rw [← hi.resolve?_eq, hj.resolve?_eq]
    · intro hsame
      rw [← hsame] at hj
      exact hi.unique hj
  · intro i c hc hwide
    have hnone := get?_succ_of_wide hc hwide
    refine ⟨hnone, ?_⟩
    intro request pool hanswer
    obtain ⟨d, hd⟩ := hanswer.holds.2.get?_isSome
    rw [hnone] at hd
    cases hd

end Runs

/-- Two references to methods of one class, spelt in two ways, with a wide constant between. -/
def mixedRun : List ConstantRequest := [
  .methodRef "a.B" "f" "()V" false,
  .long 7,
  .methodRef "a/B" "f" "()V" true,
  .classRef "a.B",
  .integer 7]

theorem mixedRun_stands :
    Answered mixedRun (.methodRef "a.B" "f" "()V" false) (.ok 6) (after (mixedRun.take 1)) ∧
      Answered mixedRun (.classRef "a.B") (.ok 2) (after (mixedRun.take 4)) ∧
      (after mixedRun).get? 7 = some (.long 7) ∧
      (after mixedRun).resolve? 6 = some (.methodRef "a/B" "f" "()V" false) ∧
      (after mixedRun).resolve? 2 = some (.classRef "a/B") ∧
      (after mixedRun).get? 8 = none ∧
      ∀ request pool, ¬ Answered mixedRun request (.ok 8) pool := by
  have hmethod : Answered mixedRun (.methodRef "a.B" "f" "()V" false) (.ok 6)
      (after (mixedRun.take 1)) :=
    ⟨[], mixedRun.drop 1, rfl, Prod.ext (by decide +kernel) rfl⟩
  have hclass : Answered mixedRun (.classRef "a.B") (.ok 2) (after (mixedRun.take 4)) :=
    ⟨mixedRun.take 3, mixedRun.drop 4, rfl, Prod.ext (by decide +kernel) rfl⟩
  have hlong : (after mixedRun).get? 7 = some (.long 7) := by decide +kernel
  obtain ⟨-, hstands, -, -, hgaps, -⟩ := answers_stand mixedRun
  obtain ⟨hnone, hnever⟩ := hgaps 7 _ hlong rfl
  exact ⟨hmethod, hclass, hlong, (hstands _ _ _ hmethod).2.2.2, (hstands _ _ _ hclass).2.2.2, hnone,
    hnever⟩

end ConstantPool
end ClassAssembly

/-
Jump destinations of a contract.  A bitmap marks the bytes of the code that are data of a PUSH.  It
is kept under the hash of the code in a cache that contracts share, or else in the contract.
-/
import Erigon.ByteCodec
import Erigon.EliasFanoBits
import Erigon.EvictingCache

namespace Erigon

namespace JumpDest

open Function (update)

def PUSH1 : UInt8 := 0x60

def JUMPDEST : UInt8 := 0x5b

/-- `setN`: what spills over takes the place of the next word. -/
def setN (bits : List Word) (flag : Word) (pc : Nat) : Option (List Word) := do
  let shift := pc % 64
  let word ← bits[pc / 64]?
  let bits := bits.set (pc / 64) (word ||| (flag <<< shift))
  if 32 < shift then
    if pc / 64 + 1 < bits.length then return bits.set (pc / 64 + 1) (flag >>> (64 - shift))
    else none
  else return bits

/-- The loop of `codeBitmap`, `none` for an index outside the bitmap. -/
def collect (code : Bytes) : Nat → Nat → List Word → Option (List Word)
  | 0, _, bits => some bits
  | fuel + 1, pc, bits =>
    match code[pc]? with
    | none => some bits
    | some op =>
      if op.toInt8 < PUSH1.toInt8 then collect code fuel (pc + 1) bits
      else if op = PUSH1 then
        (EliasFano.set bits (pc + 1)).bind fun bits => collect code fuel (pc + 1 + 1) bits
      else
        let numbits := (op - PUSH1 + 1).toNat
        (setN bits ((1#64 <<< numbits) - 1#64) (pc + 1)).bind fun bits =>
          collect code fuel (pc + 1 + numbits) bits

def codeBitmap (code : Bytes) : Option (List Word) :=
  collect code code.length 0 (List.replicate ((code.length + 32 + 63) / 64) 0#64)

def codeSegment (bits : List Word) (pos : Nat) : Option Bool :=
  bits[pos / 64]?.map fun word : Word => decide ((word >>> (pos % 64)) &&& 1#64 = 0#64)

structure Contract where
  id : Nat
  code : Bytes
  codeHash : BitVec 256
  skipAnalysis : Bool
  /-- The size of the bitmap is an int. -/
  length_lt : code.length + 32 + 63 < 2 ^ 63

/-- The bitmaps of the cache by the hash of the code, and those of the contracts. -/
abbrev Analyses := BitVec 256 ⊕ Nat → Option (List Word)

/-- Where a bitmap is looked for: in the contract, if its code has no hash. -/
def Contract.place (c : Contract) : BitVec 256 ⊕ Nat :=
  if c.codeHash ≠ 0 then .inl c.codeHash else .inr c.id

/-- From the cache a bitmap is put into the contract too, which nothing looks at then. -/
def isCode (kept : Analyses) (c : Contract) (udest : Nat) : Option Bool × Analyses :=
  match (kept c.place).or (codeBitmap c.code) with
  | none => (none, kept)
  | some analysis => (codeSegment analysis udest, update kept c.place (some analysis))

/-- Whether the destination is valid, and whether the bitmap was used. -/
def validJumpdest (kept : Analyses) (call : Contract × BitVec 256) :
    Option (Bool × Bool) × Analyses :=
  let (c, dest) := call
  let udest := dest.toNat % 2 ^ 64
  if 2 ^ 64 ≤ dest.toNat ∨ c.code.length ≤ udest then (some (false, false), kept)
  else if c.code[udest]? ≠ some JUMPDEST then (some (false, false), kept)
  else if c.skipAnalysis then (some (true, false), kept)
  else ((isCode kept c udest).1.map (·, true), (isCode kept c udest).2)

/-! ### Instructions -/

/-- The number of bytes of data behind an opcode. -/
def pushSize (op : UInt8) : Nat :=
  if 0x60 ≤ op.toNat ∧ op.toNat ≤ 0x7f then op.toNat - 0x5f else 0

def nextStart (code : Bytes) (pc : Nat) : Nat := pc + 1 + (code[pc]?).elim 0 pushSize

/-- The position of an instruction, from the first on. -/
def startOf (code : Bytes) (k : Nat) : Nat := (nextStart code)^[k] 0

def IsStart (code : Bytes) (p : Nat) : Prop := ∃ k, startOf code k = p

variable {code : Bytes} {bits : List Word} {pc : Nat}

theorem startOf_succ (code : Bytes) (k : Nat) :
    startOf code (k + 1) = nextStart code (startOf code k) :=
  Function.iterate_succ_apply' _ _ _

theorem startOf_strictMono (code : Bytes) : StrictMono (startOf code) := by
  refine strictMono_nat_of_lt_succ fun k => ?_
  rw [startOf_succ, nextStart]
  omega

theorem push_facts (op : UInt8) : (op.toInt8 < PUSH1.toInt8 → pushSize op = 0) ∧
    (¬ op.toInt8 < PUSH1.toInt8 → (op - PUSH1 + 1).toNat = pushSize op ∧ pushSize op ≤ 32) := by
  have hall : ∀ n < 256, let op := UInt8.ofNat n
      (op.toInt8 < PUSH1.toInt8 → pushSize op = 0) ∧ (¬ op.toInt8 < PUSH1.toInt8 →
        (op - PUSH1 + 1).toNat = pushSize op ∧ pushSize op ≤ 32) := by
    decide +kernel
  simpa using hall op.toNat op.toNat_lt

/-- Bits set behind everything set so far. -/
def Sets (bits : List Word) (first width : Nat) (result : Option (List Word)) : Prop :=
  ∃ bits', result = some bits' ∧ bits'.length = bits.length ∧
    ∀ p, bitAt bits' p = (bitAt bits p || decide (first ≤ p ∧ p < first + width))

theorem sets_setN {width : Nat} (hwidth : width ≤ 32) (hroom : pc + 32 ≤ 64 * bits.length)
    (hclear : ∀ p, pc ≤ p → bitAt bits p = false) :
    Sets bits pc width (setN bits ((1#64 <<< width) - 1#64) pc) := by
  have hidx : pc / 64 < bits.length := by omega
  have hflag (j : Nat) := getLsbD_lowMask (show width < 64 by omega) j
  have hfirst (p : Nat) (hp : p / 64 = pc / 64) :
      (bits[pc / 64] ||| (((1#64 <<< width) - 1#64) <<< (pc % 64))).getLsbD (p % 64) =
        (bitAt bits p || decide (pc ≤ p ∧ p < pc + width)) := by
    rw [BitVec.getLsbD_or, BitVec.getLsbD_shiftLeft, hflag, bitAt_eq_getElem (by omega)]
    simp only [hp]
    congr 1
    rw [Bool.eq_iff_iff]
    simp only [Bool.and_eq_true, Bool.not_eq_true', decide_eq_true_eq, decide_eq_false_iff_not]
    omega
  have hother (p : Nat) (hp : p / 64 ≠ pc / 64) (hnot : ¬ p < pc + width ∨ p < pc) :
      bitAt bits p = (bitAt bits p || decide (pc ≤ p ∧ p < pc + width)) := by
    rw [decide_eq_false (by omega), Bool.or_false]
  by_cases hspill : 32 < pc % 64
  · have hnext : pc / 64 + 1 < bits.length := by omega
    refine ⟨_, by simp [setN, hidx, hspill, hnext]; rfl, by simp, fun p => ?_⟩
    rw [bitAt_set (by simpa using hnext), bitAt_set hidx]
    by_cases hsecond : p / 64 = pc / 64 + 1
    · rw [if_pos hsecond, BitVec.getLsbD_ushiftRight, hflag, hclear p (by omega), Bool.false_or]
      exact decide_eq_decide.mpr (by omega)
    · rw [if_neg hsecond]
      split
      · exact hfirst p ‹_›
      · exact hother p ‹_› (by omega)
  · refine ⟨_, by simp [setN, hidx, hspill]; rfl, by simp, fun p => ?_⟩
    rw [bitAt_set hidx]
    split
    · exact hfirst p ‹_›
    · exact hother p ‹_› (by omega)

/-- The bitmap when the loop comes to the `k`-th instruction. -/
def Marked (code : Bytes) (k : Nat) (bits : List Word) : Prop :=
  bits.length = (code.length + 32 + 63) / 64 ∧
    ∀ p, bitAt bits p = true ↔ p < startOf code k ∧ ¬ IsStart code p

variable {k : Nat}

theorem startOf_next {op : UInt8} (hop : code[startOf code k]? = some op) :
    startOf code (k + 1) = startOf code k + 1 + pushSize op := by
  rw [startOf_succ, nextStart, hop]
  rfl

theorem Marked.step (h : Marked code k bits) {op : UInt8} (hop : code[startOf code k]? = some op)
    {result : Option (List Word)}
    (hsets : Sets bits (startOf code k + 1) (pushSize op) result) :
    ∃ bits', result = some bits' ∧ Marked code (k + 1) bits' := by
  obtain ⟨bits', hresult, hlength, hbits⟩ := hsets
  have hmono := startOf_strictMono code
  have hnext := startOf_next hop
  refine ⟨bits', hresult, hlength.trans h.1, fun p => ?_⟩
  rw [hbits, Bool.or_eq_true, h.2, decide_eq_true_eq, ← hnext]
  constructor
  · rintro (⟨hp, hnot⟩ | ⟨hlow, hhigh⟩)
    · exact ⟨hp.trans (hmono k.lt_succ_self), hnot⟩
    · refine ⟨hhigh, ?_⟩
      rintro ⟨j, rfl⟩
      rw [Nat.succ_le_iff, hmono.lt_iff_lt] at hlow
      rw [hmono.lt_iff_lt] at hhigh
      omega
  · rintro ⟨hp, hnot⟩
    rcases lt_trichotomy p (startOf code k) with hlt | rfl | hgt
    · exact .inl ⟨hlt, hnot⟩
    · exact absurd ⟨k, rfl⟩ hnot
    · exact .inr ⟨hgt, hp⟩

theorem collect_spec {fuel : Nat} (hfuel : code.length ≤ startOf code k + fuel)
    (h : Marked code k bits) :
    ∃ last bits', collect code fuel (startOf code k) bits = some bits' ∧
      code.length ≤ startOf code last ∧ Marked code last bits' := by
  induction fuel generalizing k bits with
  | zero => exact ⟨k, bits, rfl, hfuel, h⟩
  | succ fuel ih =>
    rw [collect]
    cases hop : code[startOf code k]? with
    | none => exact ⟨k, bits, rfl, List.getElem?_eq_none_iff.mp hop, h⟩
    | some op =>
      have hlt := (List.getElem?_eq_some_iff.mp hop).1
      have hnext := startOf_next hop
      have hlength := h.1
      have hclear (p : Nat) (hp : startOf code k + 1 ≤ p) : bitAt bits p = false := by
        rw [← Bool.not_eq_true, h.2]
        omega
      obtain ⟨hplain, hpush⟩ := push_facts op
      dsimp only
      split_ifs with hcode hone
      · obtain ⟨bits', hsame, hmarked⟩ := h.step hop ⟨bits, rfl, rfl, fun p => by
          simp [hplain hcode]⟩
        cases hsame
        rw [hplain hcode, Nat.add_zero] at hnext
        rw [← hnext]
        exact ih (by omega) hmarked
      · have hroom : startOf code k + 1 < 64 * bits.length := by omega
        obtain ⟨bits', hset, hbits'⟩ := EliasFano.set_spec hroom
        subst hone
        obtain ⟨bits', hset, hmarked⟩ := h.step hop ⟨bits', hset, hbits'.1, fun p => by
          rw [hbits'.2]
          congr 1
          exact decide_eq_decide.mpr (by rw [show pushSize PUSH1 = 1 from rfl]; omega)⟩
        rw [show pushSize PUSH1 = 1 from rfl] at hnext
        rw [hset, Option.bind_some, ← hnext]
        exact ih (by omega) hmarked
      · obtain ⟨hnum, hle⟩ := hpush hcode
        rw [hnum, ← hnext]
        obtain ⟨bits', hset, hmarked⟩ := h.step hop (sets_setN hle (by omega) hclear)
        rw [hset, Option.bind_some]
        exact ih (by omega) hmarked

/-- The bitmap of a code tells the instructions from the data. -/
theorem codeBitmap_spec (code : Bytes) : ∃ bits, codeBitmap code = some bits ∧
    ∀ p < code.length, ∃ segment, codeSegment bits p = some segment ∧
      (segment = true ↔ IsStart code p) := by
  have hmarked : Marked code 0 (List.replicate ((code.length + 32 + 63) / 64) 0#64) := by
    simp [Marked, startOf]
  obtain ⟨last, bits, hrun, hlast, hlength, hbits⟩ :=
    collect_spec (Nat.le_add_left code.length (startOf code 0)) hmarked
  refine ⟨bits, hrun, fun p hp => ⟨!bitAt bits p, ?_, ?_⟩⟩
  · have hidx : p / 64 < bits.length := by omega
    rw [codeSegment, List.getElem?_eq_getElem hidx, Option.map_some, bitAt_eq_getElem hidx,
      BitVec.and_one_eq_setWidth_ofBool_getLsbD, BitVec.getLsbD_ushiftRight, Nat.add_zero]
    cases bits[p / 64].getLsbD (p % 64) <;> rfl
  · rw [Bool.not_eq_true', ← Bool.not_eq_true, hbits]
    simp [hp.trans_le hlast]

/-! ### Calls -/

/-- Contracts that share a place, by the same hash or as one and the same, have one code. -/
def Consistent (contracts : List Contract) : Prop :=
  ∀ c ∈ contracts, ∀ d ∈ contracts, c.place = d.place → c.code = d.code

/-- A bitmap is that of every contract with the place. -/
def Fits (contracts : List Contract) (place : BitVec 256 ⊕ Nat) (bits : List Word) : Prop :=
  ∀ c ∈ contracts, c.place = place → codeBitmap c.code = some bits

open EvictingCache

abbrev AllFit (contracts : List Contract) (kept : Analyses) : Prop :=
  Keeps id (contracts.map Contract.place) (Fits contracts) kept

variable {contracts : List Contract} {kept : Analyses} {c : Contract}

/-- The destinations of a contract. -/
def Valid (c : Contract) (dest : BitVec 256) : Prop :=
  dest.toNat < c.code.length ∧ c.code[dest.toNat]? = some JUMPDEST ∧ IsStart c.code dest.toNat

section

variable (h : Consistent contracts) (hkept : AllFit contracts kept) (hc : c ∈ contracts)

include h hkept hc

theorem isCode_spec {udest : Nat} (hudest : udest < c.code.length) :
    AllFit contracts (isCode kept c udest).2 ∧
      ∃ segment, (isCode kept c udest).1 = some segment ∧
        (segment = true ↔ IsStart c.code udest) := by
  obtain ⟨bits, hbits, hsegment⟩ := codeBitmap_spec c.code
  have hplace : c.place ∈ contracts.map Contract.place := List.mem_map_of_mem hc
  have hfound : (kept c.place).or (codeBitmap c.code) = some bits := by
    cases hentry : kept c.place with
    | none => exact hbits
    | some analysis => exact (hkept _ hplace analysis hentry c hc rfl).symm.trans hbits
  rw [isCode, hfound]
  refine ⟨hkept.update (fun _ _ _ _ heq => heq) hplace fun d hd heq => ?_, hsegment udest hudest⟩
  rw [h d hd c hc heq, hbits]

theorem validJumpdest_spec (dest : BitVec 256) :
    AllFit contracts (validJumpdest kept (c, dest)).2 ∧
      (c.skipAnalysis = false → ∃ valid used,
        (validJumpdest kept (c, dest)).1 = some (valid, used) ∧ (valid = true ↔ Valid c dest)) := by
  have hlength := c.length_lt
  rw [validJumpdest]
  split_ifs with hoverflow hop hskip
  · refine ⟨hkept, fun _ => ⟨false, false, rfl, iff_of_false Bool.false_ne_true fun hvalid => ?_⟩⟩
    have := hvalid.1
    omega
  all_goals
    rw [not_or, not_le, not_le] at hoverflow
    rw [Nat.mod_eq_of_lt hoverflow.1] at *
  · exact ⟨hkept, fun _ => ⟨false, false, rfl,
      iff_of_false Bool.false_ne_true fun hvalid => hop hvalid.2.1⟩⟩
  · exact ⟨hkept, fun hnot => absurd hskip (Bool.not_eq_true _ ▸ hnot)⟩
  · obtain ⟨hkeeps, segment, hrun, hiff⟩ := isCode_spec h hkept hc hoverflow.2
    refine ⟨hkeeps, fun _ => ⟨segment, true, by rw [hrun]; rfl, ?_⟩⟩
    rw [hiff]
    exact ⟨fun hstart => ⟨hoverflow.2, not_not.mp hop, hstart⟩, fun hvalid => hvalid.2.2⟩

end

/-- Bitmaps are built without an index outside them, and after any calls on any contracts, with
any evictions, a destination is accepted exactly if it is one. -/
theorem validJumpdest_iff (calls : List ((Contract × BitVec 256) × (BitVec 256 ⊕ Nat → Bool)))
    (h : Consistent (calls.map (·.1.1))) :
    (∀ code, (codeBitmap code).isSome) ∧
    ∀ a ∈ run (·.1.place) validJumpdest (fun _ => none) calls, a.2.1.1.skipAnalysis = false →
      ∃ valid used, a.2.2 = some (valid, used) ∧ (valid = true ↔ Valid a.2.1.1 a.2.1.2) := by
  constructor
  · intro code
    obtain ⟨bits, hbits, -⟩ := codeBitmap_spec code
    exact Option.isSome_of_eq_some hbits
  · have hstep kept (hkept : AllFit (calls.map (·.1.1)) kept) call (hcall : call ∈ calls) :=
      validJumpdest_spec h hkept (List.mem_map_of_mem hcall) call.1.2
    intro a ha
    exact Keeps.run (P := fun _ call answer => call.1.skipAnalysis = false → ∃ valid used,
      answer = some (valid, used) ∧ (valid = true ↔ Valid call.1 call.2)) hstep keeps_empty a ha

/-- A JUMPDEST byte behind a PUSH1, and one that is an instruction. -/
def pushThenJumpdest : Contract := ⟨0, [0x60, 0x5b, 0x5b], 7, false, by decide⟩

theorem validJumpdest_iff_push :
    ¬ Valid pushThenJumpdest 1 ∧ Valid pushThenJumpdest 2 := by
  have hall := (validJumpdest_iff ([1, 2].map fun dest => ((pushThenJumpdest, dest), fun _ => false))
    (by simp [Consistent])).2
  obtain ⟨_, _, hfirst, hdata⟩ := hall _ (.head _) rfl
  obtain ⟨_, _, hsecond, hstart⟩ := hall _ (.tail _ (.head _)) rfl
  cases hfirst
  cases hsecond
  exact ⟨fun hvalid => absurd (hdata.mpr hvalid) Bool.false_ne_true, hstart.mp rfl⟩

end JumpDest

end Erigon

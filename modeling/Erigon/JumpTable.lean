/-
Jump tables of the Elias-Fano encodings.  Every 16384th set bit of the
upper-bits array has its position in a header word, and every 256th one its
distance from the header in a narrow slot.  The packages differ in slot width
and in the number of interleaved sequences, which is what a layout records.
-/
import Erigon.EliasFanoBits

namespace Erigon

open Option BitVec

def q : Nat := 256
def qMask : Nat := q - 1
def superQ : Nat := 16384
def superQMask : Nat := superQ - 1
def qPerSuperQ : Nat := superQ / q

/-- Where one sequence keeps the jump entry of its `c`-th element. -/
structure JumpLayout where
  header : Nat → Nat
  slotWord : Nat → Nat
  slotShift : Nat → Nat
  slotMask : Word
  slotLimit : Nat

structure JumpState where
  c : Nat
  lastSuperQ : Nat
  jump : List Word

variable (layout : JumpLayout)

/-- Body of the bit loop that fills a jump table. -/
def JumpLayout.buildBit (upperBits : List Word)
    (i : Nat) (st : JumpState) (b : Nat) : Option JumpState := do
  let word ← upperBits[i]?
  if word &&& (1#64 <<< b) = 0#64 then return st
  let st ← if st.c &&& superQMask = 0 then
      let lastSuperQ := i * 64 + b
      if layout.header st.c < st.jump.length then
        some { st with
          lastSuperQ := lastSuperQ
          jump := st.jump.set (layout.header st.c) (BitVec.ofNat 64 lastSuperQ) }
      else none
    else some st
  if st.c &&& qMask ≠ 0 then return { st with c := st.c + 1 }
  let offset := i * 64 + b - st.lastSuperQ
  -- offset needs to be encoded in the slot, therefore the following check
  if layout.slotLimit ≤ offset then none
  let shift := layout.slotShift st.c
  let mask := layout.slotMask <<< shift
  let old ← st.jump[layout.slotWord st.c]?
  return { st with
    c := st.c + 1
    jump := st.jump.set (layout.slotWord st.c)
      ((old &&& ~~~mask) ||| (BitVec.ofNat 64 offset <<< shift)) }

/-- The two nested loops over the words and bits of the upper-bits array. -/
def JumpLayout.build (upperBits jump : List Word)
    (words : Nat) : Option (List Word) := do
  let st ← (List.range words).foldlM
    (fun st i => (List.range 64).foldlM (layout.buildBit upperBits i) st)
    ⟨0, 0, jump⟩
  return st.jump

/-- Position recorded for the block of element `i`. -/
def JumpLayout.jumpTo (jump : List Word) (i : Nat) :
    Option Nat := do
  let start ← jump[layout.header i]?
  let shift := layout.slotShift i
  let mask := layout.slotMask <<< shift
  let slot ← jump[layout.slotWord i]?
  return (start + ((slot &&& mask) >>> shift)).toNat

variable (c : Nat)

def superStart : Nat := c - c % superQ

def blockStart : Nat := c - c % q

/-- Bit position of a slot inside the table. -/
def JumpLayout.slotPos : Nat :=
  64 * layout.slotWord c + layout.slotShift c

/-- Slots and headers of different blocks do not overlap, and an entry depends
only on its block. -/
structure JumpLayout.Disjoint (layout : JumpLayout) (slotBits : Nat) : Prop where
  slotBits_lt : slotBits < 64
  mask_eq : ∀ j < 64, layout.slotMask.getLsbD j = decide (j < slotBits)
  limit_eq : layout.slotLimit = 2 ^ slotBits
  shift_le : ∀ c, layout.slotShift c + slotBits ≤ 64
  header_superStart : ∀ c, layout.header (superStart c) = layout.header c
  slotWord_blockStart : ∀ c, layout.slotWord (blockStart c) = layout.slotWord c
  slotShift_blockStart : ∀ c, layout.slotShift (blockStart c) = layout.slotShift c
  header_inj : ∀ c d, c % superQ = 0 → d % superQ = 0 →
    layout.header c = layout.header d → c = d
  slot_apart : ∀ c d, c % q = 0 → d % q = 0 → c < d →
    layout.slotPos c + slotBits ≤ layout.slotPos d
  header_ne_slot : ∀ c d, layout.header c ≠ layout.slotWord d

/-- The `width` bits at `pos` spell `value`. -/
def FieldAt (words : List Word) (pos width value : Nat) : Prop :=
  ∀ j < width, bitAt words (pos + j) = value.testBit j

variable {words : List Word} {i shift width : Nat}

theorem getElem?_of_fieldAt_word {value : Nat} (hfield : FieldAt words (64 * i) 64 value)
    (hi : i < words.length) :
    words[i]? = some (BitVec.ofNat 64 value) := by
  rw [List.getElem?_eq_getElem hi]
  congr 1
  apply Word.ext_bits
  intro j hj
  have hbit := hfield j hj
  rw [bitAt_eq_getElem (by omega)] at hbit
  simp only [show (64 * i + j) / 64 = i by omega, show (64 * i + j) % 64 = j by omega] at hbit
  rw [hbit, BitVec.getLsbD_ofNat]
  simp [hj]

/-- The masked and shifted slot of a word holds the field's value. -/
theorem slot_toNat_of_fieldAt {value : Nat} {slotMask : Word} (hi : i < words.length)
    (hfield : FieldAt words (64 * i + shift) width value)
    (hmask : ∀ j < 64, slotMask.getLsbD j = decide (j < width)) (hwidth : shift + width ≤ 64)
    (hvalue : value < 2 ^ width) :
    ((words[i] &&& (slotMask <<< shift)) >>> shift).toNat = value := by
  apply Word.toNat_eq_of_bits hvalue _ (by omega)
  intro j hj
  rw [getLsbD_ushiftRight, getLsbD_and, getLsbD_shiftLeft]
  by_cases hjw : j < width
  · have hbit := hfield j hjw
    rw [bitAt_eq_getElem (by omega)] at hbit
    simp only [show (64 * i + shift + j) / 64 = i by omega,
      show (64 * i + shift + j) % 64 = shift + j by omega] at hbit
    rw [hbit, show shift + j - shift = j by omega, hmask j hj]
    simp [hjw, show shift + j < 64 by omega]
  · by_cases hin : shift + j < 64
    · rw [show shift + j - shift = j by omega, hmask j hj]
      simp [hjw]
    · simp [hin, hjw]

theorem FieldAt.congr {left right : List Word} {pos value : Nat}
    (hfield : FieldAt left pos width value)
    (hbits : ∀ p, pos ≤ p → p < pos + width → bitAt right p = bitAt left p) :
    FieldAt right pos width value := by
  intro j hj
  rw [hbits (pos + j) (by omega) (by omega), hfield j hj]

theorem fieldAt_set_word {value : Nat} (hi : i < words.length) :
    FieldAt (words.set i (BitVec.ofNat 64 value)) (64 * i) 64 value := by
  intro j hj
  rw [bitAt_set hi, if_pos (by omega), BitVec.getLsbD_ofNat, show (64 * i + j) % 64 = j by omega]
  simp [hj]

/-- Rewriting one slot of a table word changes that slot only. -/
theorem bitAt_set_slot {value : Nat} {slotMask : Word} (hi : i < words.length)
    (hmask : ∀ j < 64, slotMask.getLsbD j = decide (j < width)) (hwidth : shift + width ≤ 64)
    (hvalue : value < 2 ^ width) (p : Nat) :
    bitAt (words.set i ((words[i] &&& ~~~(slotMask <<< shift)) |||
        (BitVec.ofNat 64 value <<< shift))) p =
      if 64 * i + shift ≤ p ∧ p < 64 * i + shift + width then
        value.testBit (p - (64 * i + shift))
      else bitAt words p := by
  rw [bitAt_set hi]
  by_cases hword : p / 64 = i
  · have hold : words[i].getLsbD (p % 64) = bitAt words p := by
      rw [bitAt_eq_getElem (by omega)]
      simp only [hword]
    have hlt : p % 64 < 64 := Nat.mod_lt _ (by decide)
    rw [if_pos hword, BitVec.getLsbD_or, BitVec.getLsbD_and, BitVec.getLsbD_not,
      BitVec.getLsbD_shiftLeft, BitVec.getLsbD_shiftLeft, hold,
      BitVec.getLsbD_ofNat, hmask _ (by omega)]
    by_cases hbelow : p % 64 < shift
    · simp [hbelow, hlt, show ¬ (64 * i + shift ≤ p) by omega]
    · have hgap : p % 64 - shift = p - (64 * i + shift) := by omega
      by_cases hin : p % 64 < shift + width
      · have hslot : p % 64 - shift < width := by omega
        rw [if_pos (by omega), ← hgap]
        simp [hbelow, hlt, hslot, show p % 64 - shift < 64 by omega]
      · have hslot : ¬ p % 64 - shift < width := by omega
        have hzero : value.testBit (p % 64 - shift) = false :=
          Nat.testBit_lt_two_pow (Nat.lt_of_lt_of_le hvalue
            (Nat.pow_le_pow_right (by decide) (by omega)))
        rw [if_neg (by omega)]
        simp [hlt, hslot, hzero]
  · rw [if_neg hword, if_neg (by omega)]

theorem and_superQMask : c &&& superQMask = c % superQ :=
  Nat.and_two_pow_sub_one_eq_mod c 14

theorem and_qMask : c &&& qMask = c % q :=
  Nat.and_two_pow_sub_one_eq_mod c 8

theorem and_bit_eq_zero_iff (word : Word) {b : Nat} (hb : b < 64) :
    word &&& (1#64 <<< b) = 0#64 ↔ word.getLsbD b = false := by
  constructor
  · intro hzero
    have hbit := congrArg (fun w : Word => w.getLsbD b) hzero
    simpa [getLsbD_and, getLsbD_shiftLeft, hb] using hbit
  · intro hbit
    apply Word.ext_bits
    intro j hj
    rw [getLsbD_and, getLsbD_shiftLeft, getLsbD_one]
    by_cases hjb : j = b
    · subst hjb
      simp [hbit]
    · by_cases hlt : j < b
      · simp [hlt]
      · simp [show j - b ≠ 0 by omega]

/-- What the bit loop has done when it reaches bit position `p`. -/
structure JumpInv (layout : JumpLayout) (slotBits count : Nat) (place : Nat → Nat)
    (initial : List Word) (p : Nat) (st : JumpState) : Prop where
  c_le : st.c ≤ count
  below : ∀ k < st.c, place k < p
  above : ∀ k, st.c ≤ k → k < count → p ≤ place k
  length_eq : st.jump.length = initial.length
  headers : ∀ k < st.c, k % superQ = 0 →
    FieldAt st.jump (64 * layout.header k) 64 (place k)
  slots : ∀ k < st.c, k % q = 0 →
    FieldAt st.jump (layout.slotPos k) slotBits (place k - place (superStart k))
  last : 0 < st.c → st.lastSuperQ = place (superStart (st.c - 1))
  fits : ∀ k < st.c, k % q = 0 → place k - place (superStart k) < 2 ^ slotBits
  frame : ∀ p, (∀ k < count, p / 64 ≠ layout.header k) →
    (∀ k < count, k % q = 0 →
      ¬ (layout.slotPos k ≤ p ∧ p < layout.slotPos k + slotBits)) →
    bitAt st.jump p = bitAt initial p

/-- The headers and the slots of a sequence lie inside a table. -/
def JumpLayout.Room (count : Nat) (jump : List Word) : Prop :=
  ∀ k < count, layout.header k < jump.length ∧ layout.slotWord k < jump.length

section Build

variable {layout : JumpLayout} {slotBits count : Nat} {place : Nat → Nat}
  {upperBits initial : List Word} {st : JumpState} {i b : Nat}

variable {p : Nat}

section

variable (hinv : JumpInv layout slotBits count place initial p st)

include hinv

theorem JumpInv.skip (henum : Enumerates (bitAt upperBits) count place)
    (hbit : bitAt upperBits p = false) :
    JumpInv layout slotBits count place initial (p + 1) st := by
  refine { hinv with below := ?_, above := ?_ }
  · intro k hk
    exact Nat.lt_succ_of_lt (hinv.below k hk)
  · intro k hk hcount
    have hle := hinv.above k hk hcount
    rcases Nat.eq_or_lt_of_le hle with heq | hlt
    · have hset := (henum.bit_iff p).mpr ⟨k, hcount, heq.symm⟩
      rw [hbit] at hset
      exact absurd hset Bool.false_ne_true
    · exact hlt

/-- The state after the header of a new superblock has been written. -/
def JumpLayout.afterHeader (layout : JumpLayout) (st : JumpState) (p : Nat) :
    JumpState :=
  if st.c % superQ = 0 then
    { st with
      lastSuperQ := p
      jump := st.jump.set (layout.header st.c) (BitVec.ofNat 64 p) }
  else st

/-- The state after the slot of a new block has been written. -/
def JumpLayout.afterSlot (layout : JumpLayout) (st : JumpState) (p : Nat) :
    JumpState :=
  { st with
    c := st.c + 1
    jump := st.jump.set (layout.slotWord st.c)
      ((st.jump.getD (layout.slotWord st.c) 0#64 &&&
          ~~~(layout.slotMask <<< layout.slotShift st.c)) |||
        (BitVec.ofNat 64 (p - st.lastSuperQ) <<< layout.slotShift st.c)) }

omit hinv in
/-- One set bit: what the loop body computes. -/
theorem JumpLayout.buildBit_set {word : Word} (hword : upperBits[i]? = some word)
    (hb : b < 64) (hset : word.getLsbD b = true)
    (hheader : layout.header st.c < st.jump.length)
    (hslot : layout.slotWord st.c < st.jump.length) :
    layout.buildBit upperBits i st b =
      if st.c % q ≠ 0 then some { st with c := st.c + 1 }
      else if layout.slotLimit ≤
          i * 64 + b - (layout.afterHeader st (i * 64 + b)).lastSuperQ then none
      else some (layout.afterSlot (layout.afterHeader st (i * 64 + b)) (i * 64 + b)) := by
  have hnz : ¬ word &&& (1#64 <<< b) = 0#64 := by
    rw [and_bit_eq_zero_iff word hb, hset]
    exact Bool.true_eq_false.mp
  have hsuper : st.c % q ≠ 0 → ¬ st.c % superQ = 0 := by
    simp only [q, superQ]
    omega
  simp only [JumpLayout.buildBit, hword, and_superQMask, and_qMask,
    bind_eq_bind, bind_some, if_neg hnz]
  by_cases hq : st.c % q ≠ 0
  · simp [hq, hsuper hq]
  · simp only [ne_eq, hq, if_false]
    by_cases hs : st.c % superQ = 0
    · simp [hs, hheader, JumpLayout.afterHeader, JumpLayout.afterSlot, hslot]
    · simp [hs, JumpLayout.afterHeader, JumpLayout.afterSlot, hslot]

/-- Writing a superblock header keeps every earlier entry. -/
theorem JumpInv.afterHeader (hdisjoint : layout.Disjoint slotBits) (hc : st.c < count)
    (hp : place st.c = p) (hheader : layout.header st.c < st.jump.length) :
    (layout.afterHeader st p).c = st.c ∧
    (layout.afterHeader st p).jump.length = initial.length ∧
    (∀ k < st.c + 1, k % superQ = 0 →
      FieldAt (layout.afterHeader st p).jump (64 * layout.header k) 64 (place k)) ∧
    (∀ k < st.c, k % q = 0 → FieldAt (layout.afterHeader st p).jump
      (layout.slotPos k) slotBits (place k - place (superStart k))) ∧
    (layout.afterHeader st p).lastSuperQ = place (superStart st.c) ∧
    (∀ r, (∀ k < count, r / 64 ≠ layout.header k) →
      (∀ k < count, k % q = 0 →
        ¬ (layout.slotPos k ≤ r ∧ r < layout.slotPos k + slotBits)) →
      bitAt (layout.afterHeader st p).jump r = bitAt initial r) := by
  by_cases hs : st.c % superQ = 0
  · rw [JumpLayout.afterHeader, if_pos hs]
    refine ⟨rfl, by simp [hinv.length_eq], ?_, ?_, ?_, ?_⟩
    · refine Nat.forall_lt_succ_right.mpr ⟨fun k hlt hks => ?_, fun _ => ?_⟩
      · apply (hinv.headers k hlt hks).congr
        intro r hlow hhigh
        have hne : layout.header k ≠ layout.header st.c := fun heq =>
          Nat.ne_of_lt hlt (hdisjoint.header_inj k st.c hks hs heq)
        rw [bitAt_set hheader, if_neg (by omega)]
      · rw [hp]
        exact fieldAt_set_word hheader
    · intro k hk hkq
      apply (hinv.slots k hk hkq).congr
      intro r hlow hhigh
      have hne := hdisjoint.header_ne_slot st.c k
      have hshift := hdisjoint.shift_le k
      rw [JumpLayout.slotPos] at hlow hhigh
      rw [bitAt_set hheader, if_neg (by omega)]
    · rw [superStart, hs, Nat.sub_zero, hp]
    · intro r hheaders hslots
      rw [bitAt_set hheader, if_neg (hheaders st.c hc)]
      exact hinv.frame r hheaders hslots
  · rw [JumpLayout.afterHeader, if_neg hs]
    have hpos : 0 < st.c := by
      rcases Nat.eq_zero_or_pos st.c with hzero | hpos
      · rw [hzero] at hs
        exact absurd rfl hs
      · exact hpos
    refine ⟨rfl, hinv.length_eq,
      Nat.forall_lt_succ_right.mpr ⟨hinv.headers, fun hks => absurd hks hs⟩, hinv.slots, ?_,
      hinv.frame⟩
    rw [hinv.last hpos]
    congr 1
    simp only [superStart, superQ] at hs ⊢
    omega

omit hinv in
theorem JumpLayout.bitAt_afterSlot (hdisjoint : layout.Disjoint slotBits)
    (hslot : layout.slotWord st.c < st.jump.length) (hfits : p - st.lastSuperQ < 2 ^ slotBits)
    (r : Nat) :
    bitAt (layout.afterSlot st p).jump r =
      if layout.slotPos st.c ≤ r ∧ r < layout.slotPos st.c + slotBits then
        (p - st.lastSuperQ).testBit (r - layout.slotPos st.c)
      else bitAt st.jump r := by
  have hword : st.jump.getD (layout.slotWord st.c) 0#64 =
      st.jump[layout.slotWord st.c] := by
    rw [List.getD_eq_getElem?_getD, List.getElem?_eq_getElem hslot, getD_some]
  rw [JumpLayout.afterSlot, hword]
  exact bitAt_set_slot hslot hdisjoint.mask_eq (hdisjoint.shift_le st.c) hfits r

theorem JumpInv.below_succ (hplace : place st.c = p) : ∀ k < st.c + 1, place k < p + 1 :=
  Nat.forall_lt_succ_right.mpr
    ⟨fun k hk => Nat.lt_succ_of_lt (hinv.below k hk), Nat.lt_succ_of_le hplace.le⟩

/-- An element inside a block is only counted. -/
theorem JumpInv.countUp (henum : Enumerates (bitAt upperBits) count place)
    (hc : st.c < count) (hplace : place st.c = p) (hq : ¬ st.c % q = 0) :
    JumpInv layout slotBits count place initial (p + 1)
      { st with c := st.c + 1 } := by
  have hs : ¬ st.c % superQ = 0 := by
    simp only [q, superQ] at hq ⊢
    omega
  have hpos : 0 < st.c := Nat.pos_of_ne_zero fun hzero => hq (by rw [hzero]; rfl)
  refine ⟨hc, hinv.below_succ hplace, ?_, hinv.length_eq,
    Nat.forall_lt_succ_right.mpr ⟨hinv.headers, fun hks => absurd hks hs⟩,
    Nat.forall_lt_succ_right.mpr ⟨hinv.slots, fun hkq => absurd hkq hq⟩, ?_,
    Nat.forall_lt_succ_right.mpr ⟨hinv.fits, fun hkq => absurd hkq hq⟩, hinv.frame⟩
  · intro k hk hcount
    have := henum.mono st.c k hk hcount
    omega
  · intro _
    rw [hinv.last hpos]
    congr 1
    simp only [superStart, superQ] at hs ⊢
    omega

/-- The first element of a block gets a slot, and a header if it also starts a
superblock. -/
theorem JumpInv.record (hdisjoint : layout.Disjoint slotBits)
    (henum : Enumerates (bitAt upperBits) count place) (hc : st.c < count)
    (hplace : place st.c = p) (hq : st.c % q = 0) (hheader : layout.header st.c < st.jump.length)
    (hslot : layout.slotWord st.c < st.jump.length)
    (hfits : place st.c - place (superStart st.c) < 2 ^ slotBits) :
    JumpInv layout slotBits count place initial (p + 1)
      (layout.afterSlot (layout.afterHeader st p) p) := by
  obtain ⟨hc', hlen', hheaders', hslots', hlast', hframe'⟩ :=
    hinv.afterHeader hdisjoint hc hplace hheader
  have hroom : layout.slotWord (layout.afterHeader st p).c <
      (layout.afterHeader st p).jump.length := by
    rw [hc', hlen', ← hinv.length_eq]
    exact hslot
  have hdist : p - (layout.afterHeader st p).lastSuperQ < 2 ^ slotBits := by
    rw [hlast', ← hplace]
    exact hfits
  have hbits := JumpLayout.bitAt_afterSlot hdisjoint hroom hdist
  rw [hc', hlast', ← hplace] at hbits
  have hcount' : (layout.afterSlot (layout.afterHeader st p) p).c = st.c + 1 := by
    rw [JumpLayout.afterSlot, hc']
  rw [← hplace] at hc' hlen' hheaders' hslots' hlast' hframe' hcount' ⊢
  refine ⟨?_, ?_, ?_, ?_, ?_, ?_, ?_, ?_, ?_⟩
  · rw [hcount']
    exact hc
  · rw [hcount', hplace]
    exact hinv.below_succ hplace
  · rw [hcount']
    intro k hk hcount
    have := henum.mono st.c k hk hcount
    omega
  · rw [JumpLayout.afterSlot, List.length_set]
    exact hlen'
  · rw [hcount']
    intro k hk hks
    apply (hheaders' k hk hks).congr
    intro r hlow hhigh
    have hne := hdisjoint.header_ne_slot k st.c
    have hle := hdisjoint.shift_le st.c
    rw [hbits, if_neg (by rw [JumpLayout.slotPos]; omega)]
  · rw [hcount']
    refine Nat.forall_lt_succ_right.mpr ⟨fun k hlt hkq => ?_, fun _ j hj => ?_⟩
    · apply (hslots' k hlt hkq).congr
      intro r hlow hhigh
      have hapart := hdisjoint.slot_apart k st.c hkq hq hlt
      rw [hbits, if_neg (by omega)]
    · rw [hbits, if_pos (by omega), Nat.add_sub_cancel_left]
  · intro _
    rw [JumpLayout.afterSlot, hc', hlast', Nat.add_sub_cancel]
  · rw [hcount']
    exact Nat.forall_lt_succ_right.mpr ⟨hinv.fits, fun _ => hfits⟩
  · intro r hheaders hslots
    rw [hbits, if_neg (hslots st.c hc hq)]
    exact hframe' r hheaders hslots

end

/-- A distance that overflows its slot. -/
def Overflows (slotBits count : Nat) (place : Nat → Nat) : Prop :=
  ∃ k < count, k % q = 0 ∧ 2 ^ slotBits ≤ place k - place (superStart k)

/-- One pass of the bit loop keeps the invariant, or panics at a distance that
does not fit its slot. -/
theorem JumpInv.step (hdisjoint : layout.Disjoint slotBits)
    (henum : Enumerates (bitAt upperBits) count place)
    (hinv : JumpInv layout slotBits count place initial (64 * i + b) st)
    (hroom : layout.Room count initial)
    (hi : i < upperBits.length) (hb : b < 64) :
    (∃ st', layout.buildBit upperBits i st b = some st' ∧
      JumpInv layout slotBits count place initial (64 * i + b + 1) st') ∨
    (layout.buildBit upperBits i st b = none ∧ Overflows slotBits count place) := by
  have hword : upperBits[i]? = some upperBits[i] := List.getElem?_eq_getElem hi
  have hbit : bitAt upperBits (64 * i + b) = upperBits[i].getLsbD b := by
    rw [bitAt_eq_getElem (by omega)]
    simp only [show (64 * i + b) / 64 = i by omega, show (64 * i + b) % 64 = b by omega]
  cases hset : upperBits[i].getLsbD b with
  | false =>
    refine .inl ⟨st, ?_, hinv.skip henum (hbit.trans hset)⟩
    simp [JumpLayout.buildBit, hi, (and_bit_eq_zero_iff _ hb).mpr hset]
  | true =>
    obtain ⟨hc, hplace⟩ :=
      henum.place_eq hinv.below hinv.above (hbit.trans hset)
    obtain ⟨hheader, hslot⟩ := hroom st.c hc
    rw [← hinv.length_eq] at hheader hslot
    have hlast := (hinv.afterHeader hdisjoint hc hplace hheader).2.2.2.2.1
    have hbody := JumpLayout.buildBit_set hword hb hset hheader hslot
    rw [show i * 64 + b = 64 * i + b by omega, hlast, hdisjoint.limit_eq] at hbody
    by_cases hq : st.c % q = 0
    · rw [if_neg (not_not.mpr hq)] at hbody
      by_cases hfull : 2 ^ slotBits ≤ 64 * i + b - place (superStart st.c)
      · rw [if_pos hfull] at hbody
        exact .inr ⟨hbody, st.c, hc, hq, by rw [hplace]; exact hfull⟩
      · rw [if_neg hfull] at hbody
        rw [← hplace] at hfull
        exact .inl ⟨_, hbody, hinv.record hdisjoint henum hc hplace hq hheader
          hslot (Nat.lt_of_not_le hfull)⟩
    · rw [if_pos hq] at hbody
      exact .inl ⟨_, hbody, hinv.countUp henum hc hplace hq⟩

/-- A finished table: the entry of every element's block is in place. -/
structure JumpLayout.Records (layout : JumpLayout) (slotBits count : Nat)
    (place : Nat → Nat) (jump : List Word) : Prop where
  room : layout.Room count jump
  headers : ∀ k < count, k % superQ = 0 →
    FieldAt jump (64 * layout.header k) 64 (place k)
  slots : ∀ k < count, k % q = 0 →
    FieldAt jump (layout.slotPos k) slotBits (place k - place (superStart k))
  fits : ¬ Overflows slotBits count place

theorem JumpInv.records (hinv : JumpInv layout slotBits count place initial
      (64 * upperBits.length) st)
    (henum : Enumerates (bitAt upperBits) count place) (hroom : layout.Room count initial) :
    layout.Records slotBits count place st.jump := by
  have hc : st.c = count := by
    rcases Nat.eq_or_lt_of_le hinv.c_le with heq | hlt
    · exact heq
    · have hge := hinv.above st.c (Nat.le_refl _) hlt
      have hlt' := lt_of_bitAt ((henum.bit_iff _).mpr ⟨st.c, hlt, rfl⟩)
      omega
  refine ⟨?_, ?_, ?_, ?_⟩
  · intro k hk
    rw [hinv.length_eq]
    exact hroom k hk
  · rw [← hc]
    exact hinv.headers
  · rw [← hc]
    exact hinv.slots
  · rintro ⟨k, hk, hkq, hfull⟩
    have := hinv.fits k (by omega) hkq
    omega

theorem JumpInv.start (layout : JumpLayout) (slotBits count : Nat)
    (place : Nat → Nat) (jump : List Word) :
    JumpInv layout slotBits count place jump 0 ⟨0, 0, jump⟩ where
  c_le := Nat.zero_le count
  below := fun k hk => absurd hk (Nat.not_lt_zero k)
  above := fun _ _ _ => Nat.zero_le _
  length_eq := rfl
  headers := fun k hk => absurd hk (Nat.not_lt_zero k)
  slots := fun k hk => absurd hk (Nat.not_lt_zero k)
  last := fun h => absurd h (Nat.lt_irrefl 0)
  fits := fun k hk => absurd hk (Nat.not_lt_zero k)
  frame := fun _ _ _ => rfl

section

variable (hdisjoint : layout.Disjoint slotBits) (henum : Enumerates (bitAt upperBits) count place)
  (hroom : layout.Room count initial)

include hdisjoint henum hroom

/-- The loops end with a table, or at a distance that does not fit its slot. -/
theorem JumpLayout.build_cases :
    (∃ st : JumpState, layout.build upperBits initial upperBits.length = some st.jump ∧
      JumpInv layout slotBits count place initial (64 * upperBits.length) st) ∨
    layout.build upperBits initial upperBits.length = none ∧ Overflows slotBits count place := by
  have hrun := foldlM_range_cases
    (fun st i => (List.range 64).foldlM (layout.buildBit upperBits i) st)
    upperBits.length
    (fun i => JumpInv layout slotBits count place initial (64 * i))
    (JumpInv.start layout slotBits count place initial) (by
      intro i hi st hst
      rw [show 64 * (i + 1) = 64 * i + 64 by omega]
      exact foldlM_range_cases (layout.buildBit upperBits i) 64
        (fun b => JumpInv layout slotBits count place initial (64 * i + b)) hst
        fun b hb s hs => hs.step hdisjoint henum hroom hi hb)
  rcases hrun with ⟨st, hrun, hinv⟩ | ⟨hrun, hfull⟩
  · exact .inl ⟨st, by simp [JumpLayout.build, hrun], hinv⟩
  · exact .inr ⟨by simp [JumpLayout.build, hrun], hfull⟩

/-- When every distance fits its slot the table is built, and bits that belong
to no entry of the sequence keep their value. -/
theorem JumpLayout.build_spec (hfits : ¬ Overflows slotBits count place) :
    ∃ jump, layout.build upperBits initial upperBits.length = some jump ∧
      jump.length = initial.length ∧
      layout.Records slotBits count place jump ∧
      ∀ p, (∀ k < count, p / 64 ≠ layout.header k) →
        (∀ k < count, k % q = 0 →
          ¬ (layout.slotPos k ≤ p ∧ p < layout.slotPos k + slotBits)) →
        bitAt jump p = bitAt initial p := by
  rcases build_cases hdisjoint henum hroom with ⟨st, hbuild, hinv⟩ | ⟨-, hfull⟩
  · exact ⟨st.jump, hbuild, hinv.length_eq, hinv.records henum hroom, hinv.frame⟩
  · exact absurd hfull hfits

/-- Conversely a table that was built has only distances that fit. -/
theorem JumpLayout.records_of_build {jump : List Word}
    (hbuild : layout.build upperBits initial upperBits.length = some jump) :
    layout.Records slotBits count place jump := by
  rcases build_cases hdisjoint henum hroom with ⟨st, hsome, hinv⟩ | ⟨hnone, -⟩
  · obtain rfl : jump = st.jump := some.inj (hbuild.symm.trans hsome)
    exact hinv.records henum hroom
  · cases hbuild.symm.trans hnone

end

end Build

/-- A finished table leads to the first element of the block. -/
theorem JumpLayout.Records.jumpTo {layout : JumpLayout} {slotBits count : Nat}
    {place : Nat → Nat} {jump : List Word}
    (hrecords : layout.Records slotBits count place jump)
    (hdisjoint : layout.Disjoint slotBits)
    (hmono : ∀ i j, i < j → j < count → place i < place j)
    {c : Nat} (hc : c < count) (hplace : place (blockStart c) < 2 ^ 64) :
    layout.jumpTo jump c = some (place (blockStart c)) := by
  obtain ⟨hheader, hslot⟩ := hrecords.room c hc
  have hsuper : superStart (blockStart c) = superStart c := by
    simp only [superStart, blockStart, superQ, q]
    omega
  have hblock : blockStart c < count := by
    rw [blockStart]
    omega
  have hblockq : blockStart c % q = 0 := by
    simp only [blockStart, q]
    omega
  have hstart : superStart c < count := by
    rw [superStart]
    omega
  have hle : place (superStart c) ≤ place (blockStart c) := by
    rcases Nat.eq_or_lt_of_le (show superStart c ≤ blockStart c by
      simp only [superStart, blockStart, superQ, q]; omega) with heq | hlt
    · rw [heq]
    · exact Nat.le_of_lt (hmono _ _ hlt hblock)
  have hdist : place (blockStart c) - place (superStart c) < 2 ^ slotBits := by
    by_contra hfull
    exact hrecords.fits ⟨blockStart c, hblock, hblockq, by rw [hsuper]; omega⟩
  have hword := hrecords.headers (superStart c) hstart
    (by simp only [superStart, superQ]; omega)
  rw [hdisjoint.header_superStart] at hword
  have hfield := hrecords.slots (blockStart c) hblock hblockq
  rw [JumpLayout.slotPos, hdisjoint.slotWord_blockStart,
    hdisjoint.slotShift_blockStart, hsuper] at hfield
  have hvalue := slot_toNat_of_fieldAt hslot hfield hdisjoint.mask_eq
    (hdisjoint.shift_le c) hdist
  simp only [JumpLayout.jumpTo, getElem?_of_fieldAt_word hword hheader,
    List.getElem?_eq_getElem hslot, bind_eq_bind, bind_some,
    pure_def, some.injEq, BitVec.toNat_add, BitVec.toNat_ofNat]
  rw [hvalue]
  omega

end Erigon

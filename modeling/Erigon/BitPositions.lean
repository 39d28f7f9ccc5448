/-
Ascending positions of the set bits of a bit string, and the word-at-a-time
scan that reaches the `d`-th of them.  A position list is the specification of
rank and select; the scan is what bit-packed readers execute.
-/
import Erigon.MachineWord

namespace Erigon

open List

variable (bit : Nat → Bool)

/-- The positions in `[first, last)` whose bit is set, in ascending order. -/
def positions (first last : Nat) : List Nat :=
  (List.range' first (last - first)).filter bit

variable {p count currWord d : Nat}

@[simp] theorem mem_positions {bit : Nat → Bool} {first last : Nat} :
    p ∈ positions bit first last ↔ first ≤ p ∧ p < last ∧ bit p = true := by
  simp only [positions, mem_filter, mem_range'_1]
  constructor
  · rintro ⟨⟨hfirst, hlast⟩, hbit⟩
    exact ⟨hfirst, by omega, hbit⟩
  · rintro ⟨hfirst, hlast, hbit⟩
    exact ⟨⟨hfirst, by omega⟩, hbit⟩

theorem positions_pairwise (first last : Nat) :
    (positions bit first last).Pairwise (· < ·) :=
  (pairwise_lt_range' 1).filter bit

theorem positions_append {first middle last : Nat}
    (hfirst : first ≤ middle) (hlast : middle ≤ last) :
    positions bit first middle ++ positions bit middle last =
      positions bit first last := by
  have hrange : List.range' first (middle - first) ++
      List.range' middle (last - middle) = List.range' first (last - first) := by
    have happend := List.range'_append_1 (s := first) (m := middle - first)
      (n := last - middle)
    rw [show first + (middle - first) = middle by omega,
      show middle - first + (last - middle) = last - first by omega] at happend
    exact happend
  rw [positions, positions, positions, ← filter_append, hrange]

theorem positions_congr {left right : Nat → Bool} {first last : Nat}
    (hbits : ∀ p, first ≤ p → p < last → left p = right p) :
    positions left first last = positions right first last := by
  apply filter_congr
  intro p hp
  rw [mem_range'_1] at hp
  exact hbits p hp.1 (by omega)

theorem positions_eq_nil {bit : Nat → Bool} {first last : Nat}
    (hbits : ∀ p, first ≤ p → p < last → bit p = false) :
    positions bit first last = [] := by
  rw [eq_nil_iff_forall_not_mem]
  intro p hp
  rw [mem_positions] at hp
  rw [hbits p hp.1 hp.2.1] at hp
  exact Bool.false_ne_true hp.2.2

/-- Translating a bit string translates its positions. -/
theorem positions_map_add (offset first last : Nat) :
    (positions (fun j => bit (offset + j)) first last).map (offset + ·) =
      positions bit (offset + first) (offset + last) := by
  rw [positions, positions, ← map_add_range', filter_map]
  rw [show offset + last - (offset + first) = last - first by omega]
  rfl

/-- `place` enumerates the set bits of a bit string in ascending order. -/
structure Enumerates (bit : Nat → Bool) (count : Nat) (place : Nat → Nat) : Prop where
  mono : ∀ i j, i < j → j < count → place i < place j
  bit_iff : ∀ p, bit p = true ↔ ∃ i < count, place i = p

section

variable {bit : Nat → Bool} {place : Nat → Nat} (henum : Enumerates bit count place)

include henum

/-- Starting at the `i`-th set bit skips exactly the `i` earlier ones. -/
theorem Enumerates.positions_from {last : Nat} (hlast : ∀ i < count, place i < last)
    {start : Nat} (hstart : start < count) :
    positions bit (place start) last =
      (List.range' start (count - start)).map place := by
  have hsorted : ((List.range' start (count - start)).map place).Pairwise
      (· < ·) := by
    rw [pairwise_map]
    apply (pairwise_lt_range' 1).imp_of_mem
    intro i j _ hj hlt
    rw [mem_range'_1] at hj
    exact henum.mono i j hlt (by omega)
  apply List.Pairwise.eq_of_mem_iff
    (positions_pairwise bit (place start) last) hsorted
  intro p
  rw [mem_positions, mem_map]
  constructor
  · rintro ⟨hfirst, hp, hset⟩
    obtain ⟨i, hi, rfl⟩ := (henum.bit_iff p).mp hset
    refine ⟨i, ?_, rfl⟩
    rw [mem_range'_1]
    by_contra hout
    have hlt : i < start := by omega
    have := henum.mono i start hlt hstart
    omega
  · rintro ⟨i, hi, rfl⟩
    rw [mem_range'_1] at hi
    refine ⟨?_, hlast i (by omega), (henum.bit_iff _).mpr ⟨i, by omega, rfl⟩⟩
    rcases Nat.eq_or_lt_of_le hi.1 with rfl | hlt
    · exact Nat.le_refl _
    · exact Nat.le_of_lt (henum.mono start i hlt (by omega))

/-- Behind the first `c` ones and before the next there are only zeros. -/
theorem Enumerates.gap {c : Nat} (hbelow : ∀ k < c, place k < p) (hp : p < place c)
    (hc : c < count) : bit p = false := by
  by_contra hne
  obtain ⟨k, hk, rfl⟩ := (henum.bit_iff p).mp (by simpa using hne)
  rcases Nat.lt_trichotomy k c with hlt | rfl | hgt
  · exact Nat.lt_irrefl _ (hbelow k hlt)
  · exact Nat.lt_irrefl _ hp
  · exact Nat.lt_asymm hp (henum.mono c k hgt hk)

/-- The first set bit behind the `c`-th is the next one. -/
theorem Enumerates.positions_behind {last : Nat} (hlast : ∀ i < count, place i < last)
    {c : Nat} (hc : c + 1 < count) :
    (positions bit (place c + 1) last)[0]? = some (place (c + 1)) := by
  have hnext := henum.mono c (c + 1) (Nat.lt_succ_self c) hc
  have hnone : positions bit (place c + 1) (place (c + 1)) = [] := by
    apply positions_eq_nil
    intro p hp hlt
    refine henum.gap (fun k hk => ?_) hlt hc
    rcases Nat.lt_succ_iff_lt_or_eq.mp hk with hkc | rfl
    · have := henum.mono k c hkc (by omega)
      omega
    · exact hp
  rw [← positions_append bit hnext (Nat.le_of_lt (hlast _ hc)), hnone, nil_append,
    henum.positions_from hlast hc, getElem?_map, getElem?_range' (by omega)]
  rfl

/-- The set bit met after exactly the first `c` ones is the `c`-th. -/
theorem Enumerates.place_eq {c : Nat} (hbelow : ∀ k < c, place k < p)
    (habove : ∀ k, c ≤ k → k < count → p ≤ place k) (hset : bit p = true) :
    c < count ∧ place c = p := by
  obtain ⟨k, hk, rfl⟩ := (henum.bit_iff p).mp hset
  have hck : c ≤ k := by
    by_contra hlt
    exact Nat.lt_irrefl _ (hbelow k (Nat.lt_of_not_le hlt))
  rcases Nat.eq_or_lt_of_le hck with rfl | hlt
  · exact ⟨hk, rfl⟩
  · have hle := habove c (Nat.le_refl c) (by omega)
    have hmono := henum.mono c k hlt hk
    omega

end

/-- Set-bit positions of one word. -/
def wordOnes (word : Word) : List Nat :=
  positions word.getLsbD 0 64

/-- `bits.OnesCount64`. -/
def onesCount64 (word : Word) : Nat :=
  (wordOnes word).length

theorem wordOnes_eq_nil_iff (word : Word) : wordOnes word = [] ↔ word = 0#64 := by
  constructor
  · intro hnil
    apply Word.ext_bits
    intro j hj
    by_contra hne
    have hset : word.getLsbD j = true := by simpa using hne
    have hmem : j ∈ wordOnes word :=
      mem_positions.mpr ⟨Nat.zero_le j, hj, hset⟩
    rw [hnil] at hmem
    exact not_mem_nil hmem
  · rintro rfl
    exact positions_eq_nil fun p _ _ => by simp

/-- The word scan of a select query: `window` holds the still unread bits of
word `currWord`, `rest` the words behind it, and the `d`-th set bit is wanted.
Running off the end of the slice is the reader's index panic. -/
def scanSelect : List Word → Nat → Word → Nat → Option (Nat × Word × Nat)
  | [], currWord, window, d =>
    if onesCount64 window ≤ d then none else some (currWord, window, d)
  | next :: rest, currWord, window, d =>
    if onesCount64 window ≤ d then
      scanSelect rest (currWord + 1) next (d - onesCount64 window)
    else some (currWord, window, d)

/-- `window` shows the bits of word `currWord` from position `start` on. -/
def WindowAt (words : List Word) (start currWord : Nat) (window : Word) : Prop :=
  ∀ j < 64, window.getLsbD j =
    (decide (start ≤ 64 * currWord + j) && bitAt words (64 * currWord + j))

variable {words : List Word}

theorem WindowAt.map_wordOnes {start : Nat} {window : Word}
    (hwindow : WindowAt words start currWord window) (hstart : 64 * currWord ≤ start)
    (hend : start ≤ 64 * (currWord + 1)) :
    (wordOnes window).map (64 * currWord + ·) =
      positions (bitAt words) start (64 * (currWord + 1)) := by
  have hword : wordOnes window = positions
      (fun j => decide (start ≤ 64 * currWord + j) &&
        bitAt words (64 * currWord + j)) 0 64 :=
    positions_congr fun j _ hj => hwindow j hj
  rw [hword, positions_map_add (fun p => decide (start ≤ p) && bitAt words p) (64 * currWord) 0 64]
  rw [Nat.add_zero, show 64 * currWord + 64 = 64 * (currWord + 1) by omega,
    ← positions_append _ hstart hend]
  have hbelow : positions (fun p => decide (start ≤ p) && bitAt words p)
      (64 * currWord) start = [] :=
    positions_eq_nil fun p _ hp => by simp [Nat.not_le.mpr hp]
  rw [hbelow, nil_append]
  exact positions_congr fun p hp _ => by simp [hp]

theorem windowAt_word (hword : currWord < words.length) :
    WindowAt words (64 * currWord) currWord words[currWord] := by
  intro j hj
  have hdiv : (64 * currWord + j) / 64 = currWord := by omega
  have hmod : (64 * currWord + j) % 64 = j := by omega
  rw [bitAt_eq_getElem (by omega)]
  simp [hdiv, hmod]

/-- Select by scanning: the scan stops at the word that holds the `d`-th set
bit at or after `start`. -/
theorem scanSelect_spec {start : Nat} {window : Word}
    (hwindow : WindowAt words start currWord window) (hstart : 64 * currWord ≤ start)
    (hend : start ≤ 64 * (currWord + 1)) (hword : currWord < words.length)
    (hp : (positions (bitAt words) start (64 * words.length))[d]? = some p) :
    ∃ lastWord lastWindow lastD j,
      scanSelect (words.drop (currWord + 1)) currWord window d =
        some (lastWord, lastWindow, lastD) ∧
      (wordOnes lastWindow)[lastD]? = some j ∧ p = 64 * lastWord + j ∧ lastD ≤ d ∧
      ∃ first ≤ p, WindowAt words first lastWord lastWindow := by
  -- Induction on the number of words behind the window.
  induction hrest : words.length - (currWord + 1)
    generalizing start currWord window d with
  | zero =>
    have hfirst := (mem_positions.mp (mem_of_getElem? hp)).1
    have hones := hwindow.map_wordOnes hstart hend
    have hlen : currWord + 1 = words.length := by omega
    rw [hlen] at hones
    rw [← hones, getElem?_map, Option.map_eq_some_iff] at hp
    obtain ⟨j, hj, rfl⟩ := hp
    have hcount : d < onesCount64 window := (List.getElem?_eq_some_iff.mp hj).1
    refine ⟨currWord, window, d, j, ?_, hj, rfl, Nat.le_refl d, start, hfirst, hwindow⟩
    rw [hlen, drop_length]
    simp [scanSelect, Nat.not_le.mpr hcount]
  | succ n ih =>
    have hnext : currWord + 1 < words.length := by omega
    have hfirst := (mem_positions.mp (mem_of_getElem? hp)).1
    have hones := hwindow.map_wordOnes hstart hend
    rw [← positions_append (bitAt words) hend (by omega), ← hones] at hp
    by_cases hcount : onesCount64 window ≤ d
    · rw [getElem?_append_right (by simpa [onesCount64] using hcount), length_map] at hp
      obtain ⟨lastWord, lastWindow, lastD, j, hscan, hj, hplace, hd, hlast⟩ :=
        ih (windowAt_word hnext) (Nat.le_refl _) (by omega) hnext hp (by omega)
      refine ⟨lastWord, lastWindow, lastD, j, ?_, hj, hplace, by omega, hlast⟩
      rw [drop_eq_getElem_cons hnext, scanSelect, if_pos hcount]
      exact hscan
    · rw [getElem?_append_left (by simpa [onesCount64] using hcount),
        getElem?_map, Option.map_eq_some_iff] at hp
      obtain ⟨j, hj, rfl⟩ := hp
      refine ⟨currWord, window, d, j, ?_, hj, rfl, Nat.le_refl d, start, hfirst, hwindow⟩
      rw [drop_eq_getElem_cons hnext, scanSelect, if_neg hcount]

end Erigon

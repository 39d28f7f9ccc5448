/-
Intervals of byte strings.  Numbers in big-endian bytes are ordered as numbers,
and the strings that begin with a given one end before its next subtree.  In a
table of which no key begins another one, the next subtree of a key begins at the
next key.
-/
import Erigon.ByteOrder
import Erigon.DupTable

namespace Erigon

open List

variable {a b p : Bytes}

theorem cons_le_cons_iff {x y : UInt8} : x :: a ≤ y :: b ↔ x < y ∨ x = y ∧ a ≤ b := by
  rw [← not_lt, cons_lt_cons_iff, not_or, not_lt, not_and, not_lt]
  constructor
  · rintro ⟨hle, himp⟩
    rcases hle.eq_or_lt with heq | hlt
    · exact .inr ⟨heq, himp heq.symm⟩
    · exact .inl hlt
  · rintro (hlt | ⟨rfl, hle⟩)
    · exact ⟨hlt.le, fun heq => absurd heq hlt.ne'⟩
    · exact ⟨le_rfl, fun _ => hle⟩

theorem singleton_le_cons_iff {x y : UInt8} : [x] ≤ y :: b ↔ x ≤ y := by
  rw [cons_le_cons_iff, and_iff_left (nil_le_bytes b)]
  exact le_iff_lt_or_eq.symm

/-! ### Big-endian numbers -/

theorem append_lt_append_iff (hlength : a.length = b.length) (x y : UInt8) :
    a ++ [x] < b ++ [y] ↔ a < b ∨ a = b ∧ x < y := by
  induction a generalizing b with
  | nil =>
    obtain rfl := eq_nil_of_length_eq_zero hlength.symm
    simp [cons_lt_cons_iff]
  | cons c a ih =>
    cases b with
    | nil => cases hlength
    | cons d b =>
      rw [cons_append, cons_append, cons_lt_cons_iff, cons_lt_cons_iff,
        ih (Nat.succ.inj hlength), List.cons.injEq]
      tauto

variable {m n width : Nat}

section

variable (hm : m < 256 ^ width) (hn : n < 256 ^ width)

include hm hn

theorem beBytes_inj (heq : beBytes width m = beBytes width n) : m = n := by
  have := congrArg beNat heq
  rwa [beNat_beBytes, beNat_beBytes, Nat.mod_eq_of_lt hm, Nat.mod_eq_of_lt hn] at this

theorem beBytes_lt_iff : beBytes width m < beBytes width n ↔ m < n := by
  induction width generalizing m n with
  | zero =>
    have : m = n := by omega
    simp [this]
  | succ width ih =>
    have hm' : m / 256 < 256 ^ width := by omega
    have hn' : n / 256 < 256 ^ width := by omega
    have hbyte : UInt8.ofNat m < UInt8.ofNat n ↔ m % 256 < n % 256 := by
      rw [UInt8.lt_iff_toNat_lt, UInt8.toNat_ofNat', UInt8.toNat_ofNat']
    rw [beBytes, beBytes, append_lt_append_iff (by simp), ih hm' hn', hbyte]
    constructor
    · rintro (hlt | ⟨heq, hlt⟩)
      · omega
      · have := beBytes_inj hm' hn' heq
        omega
    · intro hlt
      rcases Nat.lt_or_ge (m / 256) (n / 256) with hdiv | hdiv
      · exact .inl hdiv
      · have heq : m / 256 = n / 256 := by omega
        exact .inr ⟨by rw [heq], by omega⟩

theorem beBytes_le_iff : beBytes width m ≤ beBytes width n ↔ m ≤ n := by
  rw [← not_lt, beBytes_lt_iff hn hm, not_lt]

end

/-! ### Subtrees -/

/-- The loop of `NextSubtree` from the last byte on. -/
def nextSubtreeRev : Bytes → Option Bytes
  | [] => none
  | x :: rest => if x ≠ 255 then some ((x + 1) :: rest) else nextSubtreeRev rest

/-- `kv.NextSubtree`. -/
def nextSubtree (b : Bytes) : Option Bytes := (nextSubtreeRev b.reverse).map List.reverse

theorem nextSubtreeRev_some {q : Bytes} (hnext : nextSubtreeRev b = some q) :
    ∃ k x rest, b = List.replicate k 255 ++ x :: rest ∧ x ≠ 255 ∧ q = (x + 1) :: rest := by
  induction b with
  | nil => cases hnext
  | cons x b ih =>
    rw [nextSubtreeRev] at hnext
    by_cases hx : x = 255
    · rw [if_neg (not_not.mpr hx)] at hnext
      obtain ⟨k, y, rest, rfl, hy, hq⟩ := ih hnext
      exact ⟨k + 1, y, rest, by simp [hx, replicate_succ], hy, hq⟩
    · rw [if_pos hx, Option.some.injEq] at hnext
      exact ⟨0, x, b, rfl, hx, hnext.symm⟩

theorem nextSubtreeRev_none (hnext : nextSubtreeRev b = none) : ∃ k, b = List.replicate k 255 := by
  induction b with
  | nil => exact ⟨0, rfl⟩
  | cons x b ih =>
    rw [nextSubtreeRev] at hnext
    by_cases hx : x = 255
    · rw [if_neg (not_not.mpr hx)] at hnext
      obtain ⟨k, rfl⟩ := ih hnext
      exact ⟨k + 1, by simp [hx, replicate_succ]⟩
    · rw [if_pos hx] at hnext
      cases hnext

theorem nextSubtree_some {q : Bytes} (hnext : nextSubtree p = some q) :
    ∃ init x k, p = init ++ x :: List.replicate k 255 ∧ x ≠ 255 ∧ q = init ++ [x + 1] := by
  rw [nextSubtree, Option.map_eq_some_iff] at hnext
  obtain ⟨r, hrev, rfl⟩ := hnext
  obtain ⟨k, x, rest, hp, hx, rfl⟩ := nextSubtreeRev_some hrev
  refine ⟨rest.reverse, x, k, ?_, hx, by simp⟩
  rw [← reverse_reverse p, hp]
  simp

theorem nextSubtree_none (hnext : nextSubtree p = none) : ∃ k, p = List.replicate k 255 := by
  rw [nextSubtree, Option.map_eq_none_iff] at hnext
  obtain ⟨k, hk⟩ := nextSubtreeRev_none hnext
  exact ⟨k, by rw [← reverse_reverse p, hk, reverse_replicate]⟩

/-- Nothing is above the greatest byte. -/
theorem replicate_isPrefix_of_le {k : Nat} (hle : List.replicate k 255 ≤ b) :
    List.replicate k 255 <+: b := by
  induction k generalizing b with
  | zero => exact nil_prefix
  | succ k ih =>
    cases b with
    | nil => exact absurd (nil_lt_cons _ _) (not_lt.mpr hle)
    | cons y b =>
      rw [replicate_succ, ← not_lt, cons_lt_cons_iff, not_or, not_and] at hle
      have hy : y = 255 := by
        have := UInt8.toNat_lt y
        have hnot := hle.1
        rw [UInt8.lt_iff_toNat_lt] at hnot
        have h255 : (255 : UInt8).toNat = 255 := rfl
        exact UInt8.toNat_inj.mp (by omega)
      rw [replicate_succ, cons_prefix_cons]
      exact ⟨hy.symm, ih (not_lt.mp (hle.2 hy))⟩

/-- The next subtree begins behind the strings that begin with `p`. -/
theorem le_iff_of_nextSubtree {q : Bytes} (hnext : nextSubtree p = some q) (b : Bytes) :
    q ≤ b ↔ p < b ∧ ¬p <+: b := by
  obtain ⟨init, x, k, rfl, hx, rfl⟩ := nextSubtree_some hnext
  clear hnext
  induction init generalizing b with
  | nil =>
    cases b with
    | nil => simp
    | cons y b =>
      have hstep : x + 1 ≤ y ↔ x < y := by
        have hlt := UInt8.toNat_lt x
        have hne : x.toNat ≠ 255 := fun h => hx (UInt8.toNat_inj.mp h)
        have hadd : (x + 1).toNat = x.toNat + 1 := by
          rw [UInt8.toNat_add]
          have : (1 : UInt8).toNat = 1 := rfl
          omega
        rw [UInt8.le_iff_toNat_le, UInt8.lt_iff_toNat_lt, hadd]
        rfl
      rw [nil_append, nil_append, singleton_le_cons_iff, hstep, cons_lt_cons_iff, cons_prefix_cons]
      constructor
      · intro hlt
        exact ⟨.inl hlt, fun hpre => hlt.ne hpre.1⟩
      · rintro ⟨hlt | ⟨heq, hlt⟩, hnot⟩
        · exact hlt
        · exact absurd ⟨heq, replicate_isPrefix_of_le hlt.le⟩ hnot
  | cons z init ih =>
    cases b with
    | nil => simp
    | cons y b =>
      rw [cons_append, cons_append, cons_le_cons_iff, ih, cons_lt_cons_iff, cons_prefix_cons]
      constructor
      · rintro (hlt | ⟨heq, hlt, hnot⟩)
        · exact ⟨.inl hlt, fun hpre => hlt.ne hpre.1⟩
        · exact ⟨.inr ⟨heq, hlt⟩, fun hpre => hnot hpre.2⟩
      · rintro ⟨hlt | ⟨heq, hlt⟩, hnot⟩
        · exact .inl hlt
        · exact .inr ⟨heq, hlt, fun hpre => hnot ⟨heq, hpre⟩⟩

/-- Only the strings that begin with ones of 255 are not below them. -/
theorem isPrefix_of_nextSubtree_none (hnext : nextSubtree p = none) (hle : p ≤ b) : p <+: b := by
  obtain ⟨n, rfl⟩ := nextSubtree_none hnext
  exact replicate_isPrefix_of_le hle

theorem lt_of_nextSubtree {q : Bytes} (hnext : nextSubtree p = some q) : p < q :=
  ((le_iff_of_nextSubtree hnext q).mp le_rfl).1

/-- `NextSubtree` gives the least string behind all strings that begin with `p`,
and gives none exactly for the strings of greatest bytes, which nothing is behind. -/
theorem nextSubtree_spec (p : Bytes) :
    (∀ q, nextSubtree p = some q →
      (∀ b, p <+: b → b < q) ∧ ∀ b, p ≤ b → b < q → p <+: b) ∧
    (nextSubtree p = none ↔ ∀ x ∈ p, x = 255) ∧
    (nextSubtree p = none ↔ ¬∃ s, ∀ b, p <+: b → b < s) := by
  have hext : ∀ q, nextSubtree p = some q → ∀ b, p <+: b → b < q := fun q hnext b hb =>
    not_le.mp fun hle => ((le_iff_of_nextSubtree hnext b).mp hle).2 hb
  refine ⟨fun q hnext => ⟨hext q hnext, fun b hle hlt => ?_⟩, ⟨fun hnext => ?_, fun hall => ?_⟩,
    ⟨fun hnext => ?_, fun hnone => ?_⟩⟩
  · rcases hle.eq_or_lt with rfl | hpb
    · exact prefix_rfl
    · by_contra hb
      exact not_le.mpr hlt ((le_iff_of_nextSubtree hnext b).mpr ⟨hpb, hb⟩)
  · obtain ⟨n, rfl⟩ := nextSubtree_none hnext
    exact fun x => eq_of_mem_replicate
  · rw [Option.eq_none_iff_forall_ne_some]
    intro q hnext
    obtain ⟨init, x, n, rfl, hx, -⟩ := nextSubtree_some hnext
    exact hx (hall x (by simp))
  · rintro ⟨s, hs⟩
    exact lt_irrefl s (hs s (isPrefix_of_nextSubtree_none hnext (hs p prefix_rfl).le))
  · rw [Option.eq_none_iff_forall_ne_some]
    exact fun q hnext => hnone ⟨q, hext q hnext⟩

/-- What begins the next subtree properly begins the string, too. -/
theorem isPrefix_of_isPrefix_nextSubtree {q : Bytes} (hnext : nextSubtree p = some q) (hb : b <+: q)
    (hne : b ≠ q) : b <+: p ∧ b ≠ p := by
  obtain ⟨init, x, k, rfl, -, rfl⟩ := nextSubtree_some hnext
  have hinit : b <+: init := by
    rcases prefix_concat_iff.mp hb with heq | hpre
    · exact absurd heq hne
    · exact hpre
  refine ⟨hinit.trans (prefix_append _ _), fun heq => ?_⟩
  have hlength := hinit.length_le
  simp [heq] at hlength

/-! ### Concatenations -/

theorem le_append_iff (hlength : a.length = b.length) (c : Bytes) : a ≤ b ++ c ↔ a ≤ b := by
  induction a generalizing b with
  | nil => simp [nil_le_bytes]
  | cons x a ih =>
    cases b with
    | nil => cases hlength
    | cons y b =>
      rw [cons_append, cons_le_cons_iff, cons_le_cons_iff, ih (Nat.succ.inj hlength)]

theorem append_le_append_iff (a b c : Bytes) : a ++ b ≤ a ++ c ↔ b ≤ c := by
  induction a with
  | nil => rfl
  | cons x a ih => simp [cons_le_cons_iff, ih]

/-- Strings of which none begins the other are ordered as their beginnings. -/
theorem append_lt_append (hlt : a < b) (hnot : ¬a <+: b) (c d : Bytes) : a ++ c < b ++ d := by
  induction a generalizing b with
  | nil => exact absurd nil_prefix hnot
  | cons x a ih =>
    cases b with
    | nil => exact absurd hlt (not_lt.mpr (nil_le_bytes _))
    | cons y b =>
      rw [cons_lt_cons_iff] at hlt
      rw [cons_append, cons_append, cons_lt_cons_iff]
      refine hlt.imp_right fun ⟨heq, hlt⟩ => ⟨heq, ih hlt fun hpre => hnot ?_⟩
      exact cons_prefix_cons.mpr ⟨heq, hpre⟩

theorem le_of_append_le_append {c d : Bytes} (hle : a ++ c ≤ b ++ d) (hb : b <+: a → b = a) :
    a ≤ b := by
  refine not_lt.mp fun hlt => not_lt.mpr hle ?_
  exact append_lt_append hlt (fun hpre => hlt.ne (hb hpre)) d c

/-! ### Walks by subtrees -/

namespace DupTable

variable {V : Type} [LinearOrder V] {t : DupTable Bytes V} {k : Bytes}

theorem seek_nextSubtree (hfree : ∀ e ∈ t.entries, k <+: e.1 → e.1 = k) {q : Bytes}
    (hnext : nextSubtree k = some q) : t.seek q = t.nextNoDup k := by
  refine find?_congr fun e he => ?_
  have hiff : q ≤ e.1 ↔ k < e.1 := by
    rw [le_iff_of_nextSubtree hnext]
    exact ⟨And.left, fun hlt => ⟨hlt, fun hpre => hlt.ne' (hfree e he hpre)⟩⟩
  simp [hiff]

theorem nextNoDup_eq_none (hfree : ∀ e ∈ t.entries, k <+: e.1 → e.1 = k)
    (hnext : nextSubtree k = none) : t.nextNoDup k = none := by
  rw [nextNoDup, find?_eq_none]
  intro e he htest
  have hlt : k < e.1 := by simpa using htest
  exact hlt.ne' (hfree e he (isPrefix_of_nextSubtree_none hnext hlt.le))

end DupTable

end Erigon

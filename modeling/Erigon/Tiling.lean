/-
Lists of half-open ranges that follow one another without gap, and ranges
aligned to powers of two of some unit.  An aligned block that ends where a
range of an aligned tiling ends, and reaches further back than that range,
is a union of whole ranges of the tiling.
-/
import Mathlib.Tactic

namespace Erigon

open List

section Tiling

variable {α : Type} (lo hi : α → Nat)

/-- The ranges of a list cover `[a, b)`, each starting where the one before it
ends, and none of them is empty. -/
def Tiles : Nat → List α → Nat → Prop
  | a, [], b => a = b
  | a, x :: xs, b => lo x = a ∧ lo x < hi x ∧ Tiles (hi x) xs b

variable {lo hi}

variable {a b c : Nat} {xs ys : List α}

theorem Tiles.le (htiles : Tiles lo hi a xs b) : a ≤ b := by
  induction xs generalizing a with
  | nil => exact Nat.le_of_eq htiles
  | cons x xs ih =>
    obtain ⟨hstart, hlt, hrest⟩ := htiles
    have := ih hrest
    omega

theorem Tiles.append (hxs : Tiles lo hi a xs b) (hys : Tiles lo hi b ys c) :
    Tiles lo hi a (xs ++ ys) c := by
  induction xs generalizing a with
  | nil =>
    obtain rfl : a = b := hxs
    exact hys
  | cons x xs ih => exact ⟨hxs.1, hxs.2.1, ih hxs.2.2⟩

theorem tiles_append_iff :
    Tiles lo hi a (xs ++ ys) c ↔ ∃ b, Tiles lo hi a xs b ∧ Tiles lo hi b ys c := by
  constructor
  · intro htiles
    induction xs generalizing a with
    | nil => exact ⟨a, rfl, htiles⟩
    | cons x xs ih =>
      obtain ⟨b, hxs, hys⟩ := ih htiles.2.2
      exact ⟨b, ⟨htiles.1, htiles.2.1, hxs⟩, hys⟩
  · rintro ⟨b, hxs, hys⟩
    exact hxs.append hys

section

variable (htiles : Tiles lo hi a xs b)

include htiles

/-- Where a range of a tiling lies. -/
theorem Tiles.bounds {x : α} (hx : x ∈ xs) : a ≤ lo x ∧ lo x < hi x ∧ hi x ≤ b := by
  induction xs generalizing a with
  | nil => exact absurd hx not_mem_nil
  | cons y xs ih =>
    obtain ⟨hstart, hlt, hrest⟩ := htiles
    rcases mem_cons.mp hx with rfl | hx
    · exact ⟨hstart.ge, hlt, hrest.le⟩
    · have := ih hrest hx
      omega

/-- A point of the covered range lies strictly inside some range of the
tiling, or the tiling can be cut there. -/
theorem Tiles.cut {p : Nat} (hap : a ≤ p) (hpb : p ≤ b) :
    (∃ x ∈ xs, lo x < p ∧ p < hi x) ∨
      ∃ ys zs, xs = ys ++ zs ∧ Tiles lo hi a ys p ∧ Tiles lo hi p zs b := by
  induction xs generalizing a with
  | nil =>
    obtain rfl : a = b := htiles
    obtain rfl : a = p := by omega
    exact .inr ⟨[], [], rfl, rfl, rfl⟩
  | cons x xs ih =>
    obtain ⟨hstart, hlt, hrest⟩ := htiles
    rcases Nat.eq_or_lt_of_le hap with rfl | hlow
    · exact .inr ⟨[], x :: xs, rfl, rfl, hstart, hlt, hrest⟩
    rcases Nat.lt_or_ge p (hi x) with hin | hout
    · exact .inl ⟨x, mem_cons_self, by omega, hin⟩
    rcases ih hrest hout with ⟨y, hy, hinside⟩ | ⟨ys, zs, rfl, hys, hzs⟩
    · exact .inl ⟨y, mem_cons_of_mem x hy, hinside⟩
    · exact .inr ⟨x :: ys, zs, rfl, ⟨hstart, hlt, hys⟩, hzs⟩

theorem Tiles.pairwise : xs.Pairwise fun x y => hi x ≤ lo y := by
  induction xs generalizing a with
  | nil => exact .nil
  | cons x xs ih => exact .cons (fun y hy => (htiles.2.2.bounds hy).1) (ih htiles.2.2)

theorem Tiles.hi_getLast {x : α} (hlast : xs.getLast? = some x) : hi x = b := by
  obtain ⟨init, rfl⟩ := getLast?_eq_some_iff.mp hlast
  obtain ⟨c, -, -, -, hend⟩ := tiles_append_iff.mp htiles
  exact hend

/-- Every point of the covered range lies in some range of the tiling. -/
theorem Tiles.exists_mem {n : Nat} (han : a ≤ n) (hnb : n < b) : ∃ x ∈ xs, lo x ≤ n ∧ n < hi x := by
  induction xs generalizing a with
  | nil =>
    have : a = b := htiles
    omega
  | cons x xs ih =>
    obtain ⟨hstart, hlt, hrest⟩ := htiles
    rcases Nat.lt_or_ge n (hi x) with hin | hout
    · exact ⟨x, mem_cons_self, by omega, hin⟩
    · obtain ⟨y, hy, hinside⟩ := ih hrest hout
      exact ⟨y, mem_cons_of_mem x hy, hinside⟩

end

/-- A block that ends with range `x` of a tiling and starts before it is made of
whole ranges, at least two of them, if a range around its start would reach up to
its end. -/
theorem Tiles.cut_back {x : α} (htiles : Tiles lo hi 0 xs b) (hx : x ∈ xs) (hback : c < lo x)
    (hroom : ∀ y ∈ xs, lo y < c → c < hi y → hi x ≤ hi y) :
    ∃ pre mid post, xs = pre ++ (mid ++ post) ∧ 2 ≤ mid.length ∧
      Tiles lo hi 0 pre c ∧ Tiles lo hi c mid (hi x) ∧ Tiles lo hi (hi x) post b := by
  obtain ⟨hlo, hlt, hhi⟩ := htiles.bounds hx
  rcases htiles.cut (Nat.zero_le c) (by omega) with ⟨y, hy, hyc, hcy⟩ |
    ⟨pre, rest, rfl, hpre, hrest⟩
  · exfalso
    have hreach := hroom y hy hyc hcy
    obtain ⟨ys, zs, rfl⟩ := append_of_mem hx
    obtain ⟨d, hys, hstart, -, hzs⟩ := tiles_append_iff.mp htiles
    rcases mem_append.mp hy with hy | hy
    · have := hys.bounds hy
      omega
    · rcases mem_cons.mp hy with rfl | hy
      · omega
      · have := hzs.bounds hy
        omega
  have hxrest : x ∈ rest := by
    rcases mem_append.mp hx with hmem | hmem
    · have := hpre.bounds hmem
      omega
    · exact hmem
  obtain ⟨mid, post, rfl⟩ := append_of_mem hxrest
  obtain ⟨d, hmid, hstart, -, hpost⟩ := tiles_append_iff.mp hrest
  refine ⟨pre, mid ++ [x], post, by simp, ?_, hpre, hmid.append ⟨hstart, hlt, rfl⟩, hpost⟩
  cases mid with
  | nil =>
    obtain rfl : c = d := hmid
    omega
  | cons z mid => simp

end Tiling

section Aligned

variable {α : Type} {lo hi : α → Nat} {unit : Nat}

/-- A block of `2 ^ k` units that starts at a multiple of its size. -/
def Aligned (unit a b : Nat) : Prop :=
  ∃ k m, a = m * (2 ^ k * unit) ∧ b = (m + 1) * (2 ^ k * unit)

/-- Between two multiples of `u` there is room for `u`. -/
theorem add_le_of_dvd_lt {u a b : Nat} (ha : u ∣ a) (hb : u ∣ b) (hlt : a < b) : a + u ≤ b := by
  obtain ⟨i, rfl⟩ := ha
  obtain ⟨j, rfl⟩ := hb
  have hij : i < j := Nat.lt_of_mul_lt_mul_left hlt
  calc u * i + u = u * (i + 1) := by rw [Nat.mul_succ]
    _ ≤ u * j := Nat.mul_le_mul_left u hij

/-- A multiple of `2 ^ j` units strictly inside an aligned block leaves room
for `2 ^ j` units up to the end of the block. -/
theorem Aligned.room {a b p j : Nat} (hblock : Aligned unit a b)
    (hp : 2 ^ j * unit ∣ p) (hap : a < p) (hpb : p < b) : p + 2 ^ j * unit ≤ b := by
  obtain ⟨k, m, rfl, rfl⟩ := hblock
  rcases Nat.le_total k j with hkj | hjk
  · -- A block no larger than the spacing has no such point.
    have hdvd : 2 ^ k * unit ∣ p :=
      (Nat.mul_dvd_mul_right (Nat.pow_dvd_pow 2 hkj) unit).trans hp
    have := add_le_of_dvd_lt (Dvd.intro_left m rfl) hdvd hap
    rw [Nat.succ_mul] at hpb
    omega
  · have hdvd : 2 ^ j * unit ∣ (m + 1) * (2 ^ k * unit) :=
      (Nat.mul_dvd_mul_right (Nat.pow_dvd_pow 2 hjk) unit).trans (Dvd.intro_left _ rfl)
    exact add_le_of_dvd_lt hp hdvd hpb

/-- A block of `2 ^ j` units that ends with range `x` of an aligned tiling and
starts before it is made of whole ranges, at least two of them. -/
theorem Tiles.cut_block {b c j : Nat} {xs : List α} {x : α} (htiles : Tiles lo hi 0 xs b)
    (haligned : ∀ y ∈ xs, Aligned unit (lo y) (hi y)) (hx : x ∈ xs)
    (hc : 2 ^ j * unit ∣ c) (hend : c + 2 ^ j * unit = hi x) (hback : c < lo x) :
    ∃ pre mid post, xs = pre ++ (mid ++ post) ∧ 2 ≤ mid.length ∧
      Tiles lo hi 0 pre c ∧ Tiles lo hi c mid (hi x) ∧ Tiles lo hi (hi x) post b := by
  refine htiles.cut_back hx hback fun y hy hyc hcy => ?_
  rw [← hend]
  exact (haligned y hy).room hc hyc hcy

end Aligned

end Erigon

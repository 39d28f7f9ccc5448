/-
One ascending list laid over another: both are merged, and where they have items of one rank,
that of the upper list hides that of the lower.
-/
import Mathlib.Data.Finset.Sort

namespace Erigon

open List

namespace Overlay

universe u v

variable {T : Type u} {R : Type v} [LinearOrder R] (rank : T → R)

def Ascending (l : List T) : Prop := l.Pairwise fun a b => rank a < rank b

/-- The items of `upper` over those of `lower`. -/
def overlay : List T → List T → List T
  | [], lower => lower
  | a :: upper, [] => a :: upper
  | a :: upper, b :: lower =>
    if rank b < rank a then b :: overlay (a :: upper) lower
    else if rank a = rank b then overlay (a :: upper) lower
    else a :: overlay upper (b :: lower)
termination_by upper lower => upper.length + lower.length

variable {rank}

variable {l lower : List T}

/-- Ascending lists are determined by their items. -/
theorem Ascending.ext {l' : List T} (hl : Ascending rank l) (hl' : Ascending rank l')
    (hmem : ∀ x, x ∈ l ↔ x ∈ l') : l = l' := by
  have : Std.Irrefl fun a b : T => rank a < rank b := ⟨fun a => lt_irrefl (rank a)⟩
  have : Std.Antisymm fun a b : T => rank a < rank b :=
    ⟨fun a b hab hba => absurd hba hab.not_gt⟩
  exact List.Pairwise.eq_of_mem_iff hl hl' hmem

theorem overlay_nil (upper : List T) : overlay rank upper [] = upper := by
  cases upper <;> simp [overlay]

theorem mem_of_mem_overlay {upper : List T} {x : T} (hx : x ∈ overlay rank upper lower) :
    x ∈ upper ∨ x ∈ lower := by
  fun_induction overlay rank upper lower with
  | case1 lower => exact .inr hx
  | case2 a upper => exact .inl hx
  | case3 a upper b lower _ ih =>
    rcases mem_cons.mp hx with rfl | hx
    · exact .inr mem_cons_self
    · exact (ih hx).imp id (mem_cons_of_mem b)
  | case4 a upper b lower _ _ ih => exact (ih hx).imp id (mem_cons_of_mem b)
  | case5 a upper b lower _ _ ih =>
    rcases mem_cons.mp hx with rfl | hx
    · exact .inl mem_cons_self
    · exact (ih hx).imp (mem_cons_of_mem a) id

theorem Ascending.nodup (h : Ascending rank l) : l.Nodup :=
  List.Pairwise.imp (fun hlt heq => hlt.ne (congrArg rank heq)) h

section

variable {upper : List T} (hupper : Ascending rank upper) (hlower : Ascending rank lower)

include hupper hlower

theorem ascending_overlay : Ascending rank (overlay rank upper lower) := by
  fun_induction overlay rank upper lower with
  | case1 lower => exact hlower
  | case2 a upper => exact hupper
  | case3 a upper b lower hlt ih =>
    rw [Ascending, pairwise_cons] at hlower
    refine pairwise_cons.mpr ⟨fun x hx => ?_, ih hupper hlower.2⟩
    rcases mem_of_mem_overlay hx with hx | hx
    · rcases mem_cons.mp hx with rfl | hx
      · exact hlt
      · exact hlt.trans ((pairwise_cons.mp hupper).1 x hx)
    · exact hlower.1 x hx
  | case4 a upper b lower _ _ ih => exact ih hupper (pairwise_cons.mp hlower).2
  | case5 a upper b lower hle hne ih =>
    have hlt : rank a < rank b := lt_of_le_of_ne (not_lt.mp hle) hne
    rw [Ascending, pairwise_cons] at hupper
    refine pairwise_cons.mpr ⟨fun x hx => ?_, ih hupper.2 hlower⟩
    rcases mem_of_mem_overlay hx with hx | hx
    · exact hupper.1 x hx
    · rcases mem_cons.mp hx with rfl | hx
      · exact hlt
      · exact hlt.trans ((pairwise_cons.mp hlower).1 x hx)

/-- An item is there if it is in the upper list, or in the lower one and not hidden. -/
theorem mem_overlay {x : T} :
    x ∈ overlay rank upper lower ↔ x ∈ upper ∨ x ∈ lower ∧ ∀ a ∈ upper, rank a ≠ rank x := by
  fun_induction overlay rank upper lower with
  | case1 lower => simp
  | case2 a upper => simp
  | case3 a upper b lower hlt ih =>
    rw [mem_cons, ih hupper (pairwise_cons.mp hlower).2, mem_cons (b := b)]
    -- the first item of the lower list is before all of the upper one
    have hfree : ∀ c ∈ a :: upper, rank c ≠ rank b := by
      intro c hc heq
      rcases mem_cons.mp hc with rfl | hc
      · exact hlt.ne heq.symm
      · exact (hlt.trans ((pairwise_cons.mp hupper).1 c hc)).ne heq.symm
    constructor
    · rintro (rfl | hx | ⟨hx, hx'⟩)
      · exact .inr ⟨.inl rfl, hfree⟩
      · exact .inl hx
      · exact .inr ⟨.inr hx, hx'⟩
    · rintro (hx | ⟨rfl | hx, hx'⟩)
      · exact .inr (.inl hx)
      · exact .inl rfl
      · exact .inr (.inr ⟨hx, hx'⟩)
  | case4 a upper b lower _ heq ih =>
    rw [ih hupper (pairwise_cons.mp hlower).2]
    constructor
    · exact Or.imp id fun ⟨hx, hx'⟩ => ⟨mem_cons_of_mem b hx, hx'⟩
    · rintro (hx | ⟨hx, hx'⟩)
      · exact .inl hx
      · rcases mem_cons.mp hx with rfl | hx
        · exact absurd heq (hx' a mem_cons_self)
        · exact .inr ⟨hx, hx'⟩
  | case5 a upper b lower hle hne ih =>
    have hlt : rank a < rank b := lt_of_le_of_ne (not_lt.mp hle) hne
    rw [mem_cons, ih (pairwise_cons.mp hupper).2 hlower, mem_cons (b := a)]
    -- the first item of the upper list is before all of the lower one
    have hfree : ∀ c ∈ b :: lower, rank a ≠ rank c := by
      intro c hc
      rcases mem_cons.mp hc with rfl | hc
      · exact hne
      · exact (hlt.trans ((pairwise_cons.mp hlower).1 c hc)).ne
    constructor
    · rintro (rfl | hx | ⟨hx, hx'⟩)
      · exact .inl (.inl rfl)
      · exact .inl (.inr hx)
      · exact .inr ⟨hx, forall_mem_cons.mpr ⟨hfree x hx, hx'⟩⟩
    · rintro ((rfl | hx) | ⟨hx, hx'⟩)
      · exact .inl rfl
      · exact .inr (.inl hx)
      · exact .inr (.inr ⟨hx, fun c hc => hx' c (mem_cons_of_mem a hc)⟩)

/-- A test that goes by the rank may be made before or after. -/
theorem overlay_filter {p : T → Bool} (hp : ∀ a b, rank a = rank b → p a = p b) :
    overlay rank (upper.filter p) (lower.filter p) = (overlay rank upper lower).filter p := by
  have hupper' : Ascending rank (upper.filter p) := List.Pairwise.filter p hupper
  have hlower' : Ascending rank (lower.filter p) := List.Pairwise.filter p hlower
  refine (ascending_overlay hupper' hlower').ext
    (List.Pairwise.filter p (ascending_overlay hupper hlower)) fun x => ?_
  rw [mem_overlay hupper' hlower', mem_filter, mem_filter, mem_filter, mem_overlay hupper hlower]
  constructor
  · rintro (⟨hx, hpx⟩ | ⟨⟨hx, hpx⟩, hfree⟩)
    · exact ⟨.inl hx, hpx⟩
    · refine ⟨.inr ⟨hx, fun a ha heq => ?_⟩, hpx⟩
      exact hfree a (mem_filter.mpr ⟨ha, (hp a x heq).trans hpx⟩) heq
  · rintro ⟨hx | ⟨hx, hfree⟩, hpx⟩
    · exact .inl ⟨hx, hpx⟩
    · exact .inr ⟨⟨hx, hpx⟩, fun a ha => hfree a (mem_filter.mp ha).1⟩

/-- Beside the upper list there is what it does not hide of the lower one. -/
theorem overlay_perm {q : T → Bool}
    (hq : ∀ b, q b = true ↔ ∀ a ∈ upper, rank a ≠ rank b) :
    (overlay rank upper lower).Perm (upper ++ lower.filter q) := by
  have hfree : (upper ++ lower.filter q).Nodup := by
    refine nodup_append.mpr ⟨hupper.nodup, hlower.nodup.filter q, fun a ha b hb heq => ?_⟩
    exact (hq b).mp (mem_filter.mp hb).2 a ha (congrArg rank heq)
  rw [perm_ext_iff_of_nodup (ascending_overlay hupper hlower).nodup hfree]
  intro x
  rw [mem_overlay hupper hlower, mem_append, mem_filter, hq]

end

/-- An item of the lower list that is hidden by the first of the upper one may be left out. -/
theorem overlay_skip {a b : T} {upper : List T} (heq : rank a = rank b) :
    overlay rank (a :: upper) (b :: lower) = overlay rank (a :: upper) lower := by
  rw [overlay, if_neg heq.not_gt, if_pos heq]

theorem overlay_lower {a b : T} {upper : List T} (hlt : rank b < rank a) :
    overlay rank (a :: upper) (b :: lower) = b :: overlay rank (a :: upper) lower := by
  rw [overlay, if_pos hlt]

theorem overlay_upper {a b : T} {upper : List T} (hlt : rank a < rank b) :
    overlay rank (a :: upper) (b :: lower) = a :: overlay rank upper (b :: lower) := by
  rw [overlay, if_neg hlt.not_gt, if_neg hlt.ne]

/-- A function that keeps ranks may be applied before or after. -/
theorem map_overlay {g : T → T} (hg : ∀ x, rank (g x) = rank x) (upper lower : List T) :
    (overlay rank upper lower).map g = overlay rank (upper.map g) (lower.map g) := by
  fun_induction overlay rank upper lower with
  | case1 lower => simp [overlay]
  | case2 a upper => simp [overlay]
  | case3 a upper b lower hlt ih =>
    rw [map_cons, ih, map_cons, map_cons, overlay_lower (by rw [hg, hg]; exact hlt)]
  | case4 a upper b lower _ heq ih =>
    rw [ih, map_cons, map_cons, overlay_skip (by rw [hg, hg]; exact heq)]
  | case5 a upper b lower hle hne ih =>
    have hlt : rank (g a) < rank (g b) := by
      rw [hg, hg]
      exact lt_of_le_of_ne (not_lt.mp hle) hne
    rw [map_cons, ih, map_cons, map_cons, overlay_upper hlt]

end Overlay

end Erigon

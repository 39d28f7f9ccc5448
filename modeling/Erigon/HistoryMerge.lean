/-
Merging a history together with its index when one of the two lags behind.
The history hands its index range to the merge of the index files; that range
is right exactly when the two agree, the history is ahead, or the leftover of
the index loop happens to be the range of the history.
-/
import Erigon.MergeSteps

namespace Erigon

open List

section Leftover

variable {stepSize maxEndTxNum maxSpan : Nat}

theorem indexMergeStep_le {r : MergeRange} (item : VisibleFile)
    (hr : r.toTxNum ≤ maxEndTxNum) :
    (indexMergeStep stepSize maxEndTxNum maxSpan r item).toTxNum ≤ maxEndTxNum := by
  rw [indexMergeStep]
  split
  · exact hr
  · dsimp only
    split_ifs <;> first | exact hr | (dsimp only; omega)

theorem indexMergeLoop_le (stepSize : Nat) (files : List VisibleFile)
    (maxEndTxNum maxSpan : Nat) :
    (indexMergeLoop stepSize files maxEndTxNum maxSpan).toTxNum ≤ maxEndTxNum :=
  foldlRecOn files _ (motive := fun r : MergeRange => r.toTxNum ≤ maxEndTxNum)
    (Nat.zero_le _) fun _ hr item _ => indexMergeStep_le item hr

/-- Behind the start of its range the loop meets no file that starts there, so
a range that is not to be merged stays what it was. -/
theorem foldl_leftover {files : List VisibleFile} {a b : Nat} {r left : MergeRange}
    (htiles : FilesTile a files b) (hfrom : r.fromTxNum < a)
    (hleft : r.needMerge = false → r = left)
    (hneed : (files.foldl (indexMergeStep stepSize maxEndTxNum maxSpan) r).needMerge =
      false) :
    files.foldl (indexMergeStep stepSize maxEndTxNum maxSpan) r = left := by
  induction files generalizing a r with
  | nil => exact hleft hneed
  | cons item files ih =>
    obtain ⟨hstart, hlt, hrest⟩ := htiles
    have hstep : (indexMergeStep stepSize maxEndTxNum maxSpan r item).fromTxNum <
          item.endTxNum ∧
        ((indexMergeStep stepSize maxEndTxNum maxSpan r item).needMerge = false →
          indexMergeStep stepSize maxEndTxNum maxSpan r item = left) := by
      rw [indexMergeStep]
      split
      · exact ⟨by omega, hleft⟩
      · dsimp only
        rw [if_neg (by omega)]
        split
        · exact ⟨by omega, hleft⟩
        · split
          · exact ⟨by omega, hleft⟩
          · exact ⟨by dsimp only; omega, fun hfalse => by cases hfalse⟩
    exact ih hrest hstep.1 hstep.2 hneed

/-- What the loop leaves when nothing is to be merged: the span of the first
file, if that file is considered at all. -/
theorem indexMergeLoop_leftover (hstep : 0 < stepSize) {files : List VisibleFile}
    (htiled : Tiled stepSize files) (hspan : 0 < maxSpan)
    (hneed : (indexMergeLoop stepSize files maxEndTxNum maxSpan).needMerge = false) :
    ((∀ first, files.head? = some first → maxEndTxNum < first.endTxNum) ∧
      (indexMergeLoop stepSize files maxEndTxNum maxSpan).toTxNum = 0) ∨
      ∃ first, files.head? = some first ∧ first.endTxNum ≤ maxEndTxNum ∧
        indexMergeLoop stepSize files maxEndTxNum maxSpan =
          ⟨false, first.endTxNum - min (mergeSpan stepSize first) maxSpan,
            first.endTxNum⟩ := by
  cases files with
  | nil => exact .inl ⟨fun _ hfirst => (nomatch hfirst), rfl⟩
  | cons first files =>
    obtain ⟨hstart, hlt, hrest⟩ := htiled.tiles
    obtain ⟨j, hj, -⟩ := mergeSpan_eq hstep htiled mem_cons_self
    have hpos : 0 < mergeSpan stepSize first := by
      rw [hj]
      positivity
    rw [indexMergeLoop, foldl_cons] at hneed ⊢
    by_cases hbehind : maxEndTxNum < first.endTxNum
    · have hzero : indexMergeStep stepSize maxEndTxNum maxSpan .zero first = .zero := by
        rw [indexMergeStep, if_pos hbehind]
      rw [hzero] at hneed ⊢
      rw [foldl_leftover hrest (show 0 < first.endTxNum by omega) (fun _ => rfl) hneed]
      exact .inl ⟨fun file hfile => Option.some.inj hfile ▸ hbehind, rfl⟩
    · -- The first file starts where the zero range does.
      have hfirst : indexMergeStep stepSize maxEndTxNum maxSpan .zero first =
          ⟨false, first.endTxNum - min (mergeSpan stepSize first) maxSpan,
            first.endTxNum⟩ := by
        rw [indexMergeStep, if_neg hbehind]
        dsimp only
        rw [if_pos ⟨hstart.symm, Nat.zero_le _⟩]
      rw [hfirst] at hneed ⊢
      have hleft := foldl_leftover hrest
        (by dsimp only; omega) (fun _ => rfl) hneed
      exact .inr ⟨first, rfl, by omega, hleft⟩

end Leftover

/-! ### Consistency of the two ranges -/

/-- The index files are merged to a range, and if the history is merged, to
the range of the history. -/
def ConsistentRanges (r : HistoryRanges) : Prop :=
  ∃ range, historyMergeFilesRange r = some range ∧
    (r.history.needMerge = true → range = (r.history.fromTxNum, r.history.toTxNum))

/-- When the loops over history files and index files fit together: the history
has nothing to merge, or the index wants a merge that does not end behind that
of the history, or it wants none and its first file ends where the merge of
the history does. -/
def RangesFit (stepSize : Nat) (historyFiles indexFiles : List VisibleFile)
    (maxEndTxNum maxSpan : Nat) : Prop :=
  (historyMergeLoop stepSize historyFiles maxEndTxNum maxSpan).needMerge = true →
    ((indexMergeLoop stepSize indexFiles maxEndTxNum maxSpan).needMerge = true ∧
      (indexMergeLoop stepSize indexFiles maxEndTxNum maxSpan).toTxNum ≤
        (historyMergeLoop stepSize historyFiles maxEndTxNum maxSpan).toTxNum) ∨
    ((indexMergeLoop stepSize indexFiles maxEndTxNum maxSpan).needMerge = false ∧
      ∃ first, indexFiles.head? = some first ∧ first.endTxNum =
        (historyMergeLoop stepSize historyFiles maxEndTxNum maxSpan).toTxNum)

section Consistency

variable {stepSize maxEndTxNum maxSpan : Nat}
  {historyFiles indexFiles dirtyIndexFiles : List VisibleFile}

/-- The start of a range follows from its end. -/
theorem ChosenFrom.from_eq {files : List VisibleFile} {r : MergeRange}
    (hchosen : ChosenFrom (fun item => min (mergeSpan stepSize item) maxSpan) files r)
    (hneed : r.needMerge = true) :
    r.fromTxNum = r.toTxNum -
      min (lowestBit (r.toTxNum / stepSize) * stepSize) maxSpan := by
  obtain ⟨item, -, hto, hfrom, -⟩ := hchosen hneed
  rw [hfrom, hto]
  rfl

theorem consistent_of_index {r : HistoryRanges} (hhistory : r.history.needMerge = false)
    (hlt : r.index.fromTxNum < r.index.toTxNum) : ConsistentRanges r := by
  refine ⟨(r.index.fromTxNum, r.index.toTxNum), ?_, ?_⟩
  · rw [historyMergeFilesRange, indexMergeFilesRange, if_neg hlt.ne]
  · rw [hhistory]
    exact fun hneed => absurd hneed Bool.false_ne_true

theorem consistent_iff_eq {r : HistoryRanges} (hhistory : r.history.needMerge = true)
    (hlt : r.history.fromTxNum < r.history.toTxNum) :
    ConsistentRanges r ↔ r.index.fromTxNum = r.history.fromTxNum ∧
      r.index.toTxNum = r.history.toTxNum := by
  constructor
  · rintro ⟨range, hrange, hsame⟩
    rw [historyMergeFilesRange, indexMergeFilesRange] at hrange
    split at hrange
    · cases hrange
    · cases hrange
      exact Prod.mk.inj (hsame hhistory)
  · rintro ⟨hfrom, hto⟩
    refine ⟨(r.index.fromTxNum, r.index.toTxNum), ?_, fun _ => by rw [hfrom, hto]⟩
    rw [historyMergeFilesRange, indexMergeFilesRange, if_neg (by omega)]

/-- What becomes of two ranges: they are consistent exactly when they fit. -/
theorem reconcile_consistent_iff {history index : MergeRange}
    (hhlt : history.needMerge = true → history.fromTxNum < history.toTxNum)
    (hilt : index.needMerge = true → index.fromTxNum < index.toTxNum)
    (hfrom : history.needMerge = true → index.needMerge = true →
      index.toTxNum = history.toTxNum → index.fromTxNum = history.fromTxNum)
    (hany : (reconcile history index).any = true) :
    ConsistentRanges (reconcile history index) ↔ (history.needMerge = true →
      (index.needMerge = true ∧ index.toTxNum ≤ history.toTxNum) ∨
      (index.needMerge = false ∧ index.fromTxNum = history.fromTxNum ∧
        index.toTxNum = history.toTxNum)) := by
  cases hhistory : history.needMerge with
  | false =>
    have hr : reconcile history index = ⟨history, index⟩ := by simp [reconcile, hhistory]
    rw [hr] at hany ⊢
    rw [HistoryRanges.any, hhistory, Bool.false_or] at hany
    exact iff_of_true (consistent_of_index hhistory (hilt hany)) (by simp)
  | true =>
    cases hindex : index.needMerge with
    | false =>
      have hr : reconcile history index = ⟨history, index⟩ := by simp [reconcile, hindex]
      rw [hr, consistent_iff_eq hhistory (hhlt hhistory)]
      simp
    | true =>
      rcases Nat.lt_trichotomy index.toTxNum history.toTxNum with hlt | heq | hgt
      · have hr : reconcile history index = ⟨.zero, index⟩ := by
          simp [reconcile, hhistory, hindex, hlt]
        rw [hr]
        exact iff_of_true (consistent_of_index rfl (hilt hindex))
          fun _ => .inl ⟨rfl, hlt.le⟩
      · have hr : reconcile history index = ⟨history, index⟩ := by
          simp [reconcile, heq]
        rw [hr, consistent_iff_eq hhistory (hhlt hhistory)]
        exact iff_of_true ⟨hfrom hhistory hindex heq, heq⟩ fun _ => .inl ⟨rfl, heq.le⟩
      · have hr : reconcile history index = ⟨history, .zero⟩ := by
          simp [reconcile, hhistory, hindex, hgt, hgt.le]
        rw [hr, consistent_iff_eq hhistory (hhlt hhistory)]
        have hpos := hhlt hhistory
        refine iff_of_false (fun heq => ?_) fun hfit => ?_
        · exact absurd heq.2 (show 0 ≠ history.toTxNum by omega)
        · rcases hfit rfl with ⟨-, hle⟩ | ⟨hfalse, -⟩
          · omega
          · cases hfalse

/-- A history and its index, each tiled: when there is something to merge and
the files of the merge are found, the index files are merged to the range of
the history exactly when the choices of the two loops fit together. -/
theorem historyMerge_consistent_iff (hstep : 0 < stepSize) (hspan : 0 < maxSpan)
    (hhistory : Tiled stepSize historyFiles) (hindex : Tiled stepSize indexFiles)
    {r : HistoryRanges}
    (hfind : historyFindMergeRange stepSize historyFiles indexFiles maxEndTxNum maxSpan =
      some r) (hany : r.any = true) :
    ((∃ found, historyStaticFilesInRange historyFiles indexFiles dirtyIndexFiles r =
        some found) → ConsistentRanges r) ↔
      ((∃ found, historyStaticFilesInRange historyFiles indexFiles dirtyIndexFiles r =
        some found) →
        RangesFit stepSize historyFiles indexFiles maxEndTxNum maxSpan) := by
  refine imp_congr_right fun _ => ?_
  have hhchosen : ChosenFrom (fun item => min (mergeSpan stepSize item) maxSpan) historyFiles
      (historyMergeLoop stepSize historyFiles maxEndTxNum maxSpan) :=
    indexMergeLoop_chosen stepSize historyFiles maxEndTxNum maxSpan
  have hichosen := indexMergeLoop_chosen stepSize indexFiles maxEndTxNum maxSpan
  have hhlt := hhchosen.lt fun item hitem => (hhistory.tiles.bounds hitem).2.1
  have hle : (historyMergeLoop stepSize historyFiles maxEndTxNum maxSpan).toTxNum ≤
      maxEndTxNum := indexMergeLoop_le stepSize historyFiles maxEndTxNum maxSpan
  rw [historyFindMergeRange, indexFindMergeRange_eq hindex, Option.map_some,
    Option.some.injEq] at hfind
  subst hfind
  rw [reconcile_consistent_iff hhlt
    (hichosen.lt fun item hitem => (hindex.tiles.bounds hitem).2.1)
    (fun hh hi heq => by rw [hichosen.from_eq hi, hhchosen.from_eq hh, heq]) hany]
  refine forall_congr' fun hneed => or_congr_right (and_congr_right fun hnone => ?_)
  have hpos := hhlt hneed
  rcases indexMergeLoop_leftover hstep hindex hspan hnone with ⟨hbehind, hzero⟩ |
    ⟨first, hfirst, -, hloop⟩
  · refine iff_of_false (fun heq => by omega) ?_
    rintro ⟨first, hfirst, hend⟩
    have := hbehind first hfirst
    omega
  · rw [hloop, hfirst]
    constructor
    · rintro ⟨-, hto⟩
      exact ⟨first, rfl, hto⟩
    · rintro ⟨first', hfirst', hend⟩
      obtain rfl := Option.some.inj hfirst'
      refine ⟨?_, hend⟩
      rw [hhchosen.from_eq hneed, ← hend]
      rfl

end Consistency

/-! ### Instances -/

/-- One-step files up to `n`, which arise by appending alone. -/
theorem reachable_steps (c : Nat) : ∀ n < 2 ^ 64,
    ReachableFiles 1 (indexChoice 1 c) ((range n).map fun i => ⟨i, i + 1⟩)
  | 0, _ => .refl
  | n + 1, hn => by
    have hend : filesEndTxNum ((range n).map fun i => ⟨i, i + 1⟩) = n := by
      cases n with
      | zero => rfl
      | succ n => simp [filesEndTxNum, range_succ]
    have hmove : FileStep 1 (indexChoice 1 c) _ _ :=
      .append ((range n).map fun i => ⟨i, i + 1⟩) (by omega)
    rw [hend] at hmove
    rw [range_succ, map_append]
    exact .tail (reachable_steps c n (by omega)) hmove

/-- Two ways to disagree.  The index has merged the first two of four steps: it
wants four steps next, the history is behind, the index range is cleared and
the assertion of the index merge fails.  The index has merged all of six steps
that it can: its leftover range is its first file, and the index files of the
history merge are merged to that range instead. -/
theorem historyMerge_ranges_differ :
    (ReachableFiles 1 (indexChoice 1 6) [⟨0, 1⟩, ⟨1, 2⟩, ⟨2, 3⟩, ⟨3, 4⟩] ∧
      ReachableFiles 1 (indexChoice 1 6) [⟨0, 2⟩, ⟨2, 3⟩, ⟨3, 4⟩] ∧
      historyFindMergeRange 1 [⟨0, 1⟩, ⟨1, 2⟩, ⟨2, 3⟩, ⟨3, 4⟩]
        [⟨0, 2⟩, ⟨2, 3⟩, ⟨3, 4⟩] 4 64 = some ⟨⟨true, 0, 2⟩, ⟨false, 0, 0⟩⟩ ∧
      historyStaticFilesInRange [⟨0, 1⟩, ⟨1, 2⟩, ⟨2, 3⟩, ⟨3, 4⟩]
        [⟨0, 2⟩, ⟨2, 3⟩, ⟨3, 4⟩] [⟨0, 1⟩, ⟨1, 2⟩, ⟨0, 2⟩, ⟨2, 3⟩, ⟨3, 4⟩]
        ⟨⟨true, 0, 2⟩, ⟨false, 0, 0⟩⟩ = some ([⟨0, 1⟩, ⟨1, 2⟩], [⟨0, 1⟩, ⟨1, 2⟩]) ∧
      historyMergeFilesRange ⟨⟨true, 0, 2⟩, ⟨false, 0, 0⟩⟩ = none) ∧
    (ReachableFiles 1 (indexChoice 1 6) [⟨0, 4⟩, ⟨4, 5⟩, ⟨5, 6⟩] ∧
      ReachableFiles 1 (indexChoice 1 6) [⟨0, 4⟩, ⟨4, 6⟩] ∧
      historyFindMergeRange 1 [⟨0, 4⟩, ⟨4, 5⟩, ⟨5, 6⟩] [⟨0, 4⟩, ⟨4, 6⟩] 6 64 =
        some ⟨⟨true, 4, 6⟩, ⟨false, 0, 4⟩⟩ ∧
      historyStaticFilesInRange [⟨0, 4⟩, ⟨4, 5⟩, ⟨5, 6⟩] [⟨0, 4⟩, ⟨4, 6⟩]
        [⟨0, 4⟩, ⟨4, 5⟩, ⟨5, 6⟩, ⟨4, 6⟩] ⟨⟨true, 4, 6⟩, ⟨false, 0, 4⟩⟩ =
        some ([⟨4, 5⟩, ⟨5, 6⟩], [⟨4, 5⟩, ⟨5, 6⟩]) ∧
      historyMergeFilesRange ⟨⟨true, 4, 6⟩, ⟨false, 0, 4⟩⟩ = some (0, 4)) := by
  have hfour := reachable_steps 6 4 (by decide)
  have hmerged : ReachableFiles 1 (indexChoice 1 6) [⟨0, 2⟩, ⟨2, 3⟩, ⟨3, 4⟩] :=
    .tail hfour (.merge _ 4 ⟨true, 0, 2⟩ (by decide) rfl)
  have hsix : ReachableFiles 1 (indexChoice 1 6) [⟨0, 4⟩, ⟨4, 5⟩, ⟨5, 6⟩] :=
    .tail (.tail (reachable_steps 6 6 (by decide))
      (.merge _ 4 ⟨true, 0, 2⟩ (by decide) rfl)) (.merge _ 4 ⟨true, 0, 4⟩ (by decide) rfl)
  have hdone : ReachableFiles 1 (indexChoice 1 6) [⟨0, 4⟩, ⟨4, 6⟩] :=
    .tail hsix (.merge _ 6 ⟨true, 4, 6⟩ (by decide) rfl)
  exact ⟨⟨hfour, hmerged, by decide, by decide, by decide⟩,
    ⟨hsix, hdone, by decide, by decide, by decide⟩⟩

/-- Two steps that neither side has merged yet. -/
theorem historyMerge_consistent_two :
    historyFindMergeRange 1 [⟨0, 1⟩, ⟨1, 2⟩] [⟨0, 1⟩, ⟨1, 2⟩] 2 64 =
        some ⟨⟨true, 0, 2⟩, ⟨true, 0, 2⟩⟩ ∧
      ConsistentRanges ⟨⟨true, 0, 2⟩, ⟨true, 0, 2⟩⟩ := by
  have htiled : Tiled 1 [⟨0, 1⟩, ⟨1, 2⟩] :=
    (reachable_steps 6 2 (by decide)).tiled Nat.one_pos (indexChoice_sound Nat.one_pos 6)
  have hfind : historyFindMergeRange 1 [⟨0, 1⟩, ⟨1, 2⟩] [⟨0, 1⟩, ⟨1, 2⟩] 2 64 =
      some ⟨⟨true, 0, 2⟩, ⟨true, 0, 2⟩⟩ := by decide
  have hfound : historyStaticFilesInRange [⟨0, 1⟩, ⟨1, 2⟩] [⟨0, 1⟩, ⟨1, 2⟩]
      [⟨0, 1⟩, ⟨1, 2⟩] ⟨⟨true, 0, 2⟩, ⟨true, 0, 2⟩⟩ =
        some ([⟨0, 1⟩, ⟨1, 2⟩], [⟨0, 1⟩, ⟨1, 2⟩]) := by decide
  exact ⟨hfind, (historyMerge_consistent_iff Nat.one_pos (by decide) htiled htiled hfind
    rfl).mpr (fun _ _ => .inl (by decide)) ⟨_, hfound⟩⟩

end Erigon

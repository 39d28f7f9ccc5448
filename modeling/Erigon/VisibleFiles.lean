/-
From dirty files to visible files (`calcVisibleFiles`) and to the files that may
be deleted (`garbage`).  Dirty files may overlap, be incomplete or be marked for
deletion; they are kept in a tree ordered by their ends.
-/
import Erigon.MaximalScan
import Erigon.MergeRange
import Mathlib.Order.CompletePartialOrder

namespace Erigon

open List

/-- A dirty file.  Of the opened segment and accessors, only whether they are
there is of interest here. -/
structure FilesItem where
  startTxNum : Nat
  endTxNum : Nat
  frozen : Bool
  canDelete : Bool
  decompressor : Bool
  index : Bool
  bindex : Bool
  existence : Bool
  deriving DecidableEq

namespace FilesItem

/-- When `j` covers `i` but is not equal to `i`. -/
def isProperSubsetOf (i j : FilesItem) : Bool :=
  decide ((j.startTxNum ≤ i.startTxNum ∧ i.endTxNum ≤ j.endTxNum) ∧
    (j.startTxNum ≠ i.startTxNum ∨ i.endTxNum ≠ j.endTxNum))

def isBefore (i j : FilesItem) : Bool :=
  decide (i.endTxNum ≤ j.startTxNum)

/-- The transaction numbers of a file. -/
def range (i : FilesItem) : Set Nat := Set.Ico i.startTxNum i.endTxNum

end FilesItem

/-- The order of the tree. -/
def filesItemLess (i j : FilesItem) : Bool :=
  if i.endTxNum = j.endTxNum then decide (j.startTxNum < i.startTxNum)
  else decide (i.endTxNum < j.endTxNum)

/-- The tree of dirty files, in the order in which it is walked. -/
structure DirtyFiles where
  items : List FilesItem
  ordered : items.Pairwise fun i j => filesItemLess i j = true

/-- `statecfg.Accessors`, a set of bits. -/
abbrev Accessors := Nat

def Accessors.has (l target : Accessors) : Bool := decide (l &&& target ≠ 0)

def accessorBTree : Accessors := 1
def accessorHashMap : Accessors := 2
def accessorExistence : Accessors := 4

def checkForVisibility (item : FilesItem) (l : Accessors) : Bool :=
  if item.canDelete then false
  else if !item.decompressor then false
  else if l.has accessorBTree && !item.bindex then false
  else if l.has accessorHashMap && !item.index then false
  else if l.has accessorExistence && !item.existence then false
  else true

/-- `visibleFile`: its range, its position and the dirty file it shows. -/
structure VisibleItem extends VisibleFile where
  i : Nat
  src : FilesItem
  deriving DecidableEq

/-- One item of the walk. -/
def visibleStep (l : Accessors) (checker : Option (Nat → Nat → Bool)) (toTxNum : Nat)
    (newVisibleFiles : List VisibleItem) (item : FilesItem) : List VisibleItem :=
  if toTxNum < item.endTxNum then newVisibleFiles
  else if !checkForVisibility item l then newVisibleFiles
  else if checker.any fun check => !check item.startTxNum item.endTxNum then newVisibleFiles
  else
    -- a bigger file is good, the files inside it are dropped from the list
    let rest := newVisibleFiles.rdropWhile fun f => f.src.isProperSubsetOf item
    rest ++ [⟨⟨item.startTxNum, item.endTxNum⟩, rest.length, item⟩]

def calcVisibleFiles (files : DirtyFiles) (l : Accessors)
    (checker : Option (Nat → Nat → Bool)) (toTxNum : Nat) : List VisibleItem :=
  files.items.foldl (visibleStep l checker toTxNum) []

def hasCoverVisibleFile (visibleFiles : List VisibleItem) (item : FilesItem) : Bool :=
  visibleFiles.any fun f => item.isProperSubsetOf f.src

/-- Whether one item of the walk of `garbage` is selected. -/
def isGarbage (visibleFiles : List VisibleItem) (merged : Option FilesItem)
    (checker : Option (Nat → Nat → Bool)) (item : FilesItem) : Bool :=
  if item.frozen then false
  else
    match merged with
    | none => hasCoverVisibleFile visibleFiles item
    | some merged =>
      if item.isBefore merged && hasCoverVisibleFile visibleFiles item then true
      else if item.isProperSubsetOf merged then
        -- no dependent file may be present
        checker.all fun check => !check item.startTxNum item.endTxNum
      else false

def garbage (dirtyFiles : DirtyFiles) (visibleFiles : List VisibleItem)
    (merged : Option FilesItem) (checker : Option (Nat → Nat → Bool)) : List FilesItem :=
  dirtyFiles.items.filter (isGarbage visibleFiles merged checker)

/-! ### Containment of files -/

theorem FilesItem.isProperSubsetOf_iff {i j : FilesItem} : i.isProperSubsetOf j = true ↔
    (j.startTxNum ≤ i.startTxNum ∧ i.endTxNum ≤ j.endTxNum) ∧
      (j.startTxNum ≠ i.startTxNum ∨ i.endTxNum ≠ j.endTxNum) := by
  rw [isProperSubsetOf, decide_eq_true_iff]

theorem filesItemLess_iff {i j : FilesItem} : filesItemLess i j = true ↔
    i.endTxNum < j.endTxNum ∨
      i.endTxNum = j.endTxNum ∧ j.startTxNum < i.startTxNum := by
  unfold filesItemLess
  split
  · rw [decide_eq_true_iff]
    omega
  · rw [decide_eq_true_iff]
    omega

/-! ### The walk -/

/-- The files that a walk considers. -/
def Eligible (l : Accessors) (checker : Option (Nat → Nat → Bool)) (toTxNum : Nat)
    (item : FilesItem) : Prop :=
  item.endTxNum ≤ toTxNum ∧ item.canDelete = false ∧ item.decompressor = true ∧
    (l.has accessorBTree = true → item.bindex = true) ∧
    (l.has accessorHashMap = true → item.index = true) ∧
    (l.has accessorExistence = true → item.existence = true) ∧
    ∀ check, checker = some check → check item.startTxNum item.endTxNum = true

instance (l : Accessors) (checker : Option (Nat → Nat → Bool)) (toTxNum : Nat) :
    DecidablePred (Eligible l checker toTxNum) := fun item =>
  decidable_of_iff (item.endTxNum ≤ toTxNum ∧ item.canDelete = false ∧
    item.decompressor = true ∧ (l.has accessorBTree = true → item.bindex = true) ∧
    (l.has accessorHashMap = true → item.index = true) ∧
    (l.has accessorExistence = true → item.existence = true) ∧
    (checker.all fun check => check item.startTxNum item.endTxNum) = true)
    (by cases checker <;> simp [Eligible])

variable (items : List FilesItem)

/-- The visible files that show the given dirty files. -/
def showFiles : List VisibleItem :=
  items.mapIdx fun i item => ⟨⟨item.startTxNum, item.endTxNum⟩, i, item⟩

theorem length_showFiles : (showFiles items).length = items.length :=
  length_mapIdx

theorem map_src_showFiles :
    (showFiles items).map VisibleItem.src = items := by
  refine ext_getElem (by rw [length_map, length_showFiles]) fun i _ _ => ?_
  simp [showFiles]

theorem mem_showFiles {items : List FilesItem} {f : VisibleItem} (hf : f ∈ showFiles items) :
    f.src ∈ items ∧ f.startTxNum = f.src.startTxNum ∧ f.endTxNum = f.src.endTxNum := by
  obtain ⟨i, hi, rfl⟩ := mem_mapIdx.mp hf
  exact ⟨getElem_mem hi, rfl, rfl⟩

theorem showFiles_concat (item : FilesItem) :
    showFiles (items ++ [item]) =
      showFiles items ++ [⟨⟨item.startTxNum, item.endTxNum⟩, items.length, item⟩] := by
  rw [showFiles, mapIdx_concat]
  rfl

theorem showFiles_rdropWhile (p : FilesItem → Bool) :
    (showFiles items).rdropWhile (fun f => p f.src) = showFiles (items.rdropWhile p) := by
  induction items using List.reverseRecOn with
  | nil => rfl
  | append_singleton items item ih =>
    rw [showFiles_concat, rdropWhile_concat, rdropWhile_concat]
    dsimp only
    split
    · exact ih
    · exact (showFiles_concat items item).symm

section Walk

variable {l : Accessors} {checker : Option (Nat → Nat → Bool)} {toTxNum : Nat}

theorem visibleStep_skip {item : FilesItem} (hitem : ¬Eligible l checker toTxNum item)
    (visible : List VisibleItem) : visibleStep l checker toTxNum visible item = visible := by
  unfold visibleStep
  split
  · rfl
  · split
    · rfl
    · split
      · rfl
      · rename_i hto hcheck hchecker
        refine absurd ⟨Nat.le_of_not_lt hto, ?_⟩ hitem
        unfold checkForVisibility at hcheck
        cases checker <;> grind

theorem visibleStep_show {item : FilesItem} (hitem : Eligible l checker toTxNum item)
    (kept : List FilesItem) : visibleStep l checker toTxNum (showFiles kept) item =
      showFiles (pushMaximal FilesItem.isProperSubsetOf kept item) := by
  obtain ⟨hto, hdelete, hopen, hbtree, hmap, hexistence, hcheck⟩ := hitem
  have hvisible : checkForVisibility item l = true := by
    unfold checkForVisibility
    grind
  have hchecker : (checker.any fun check => !check item.startTxNum item.endTxNum) =
      false := by
    cases checker with
    | none => rfl
    | some check => simp [hcheck check rfl]
  have hrest := showFiles_rdropWhile kept fun a => a.isProperSubsetOf item
  simp only [visibleStep, if_neg (Nat.not_lt.mpr hto), hvisible, hchecker, hrest,
    pushMaximal, showFiles_concat, length_showFiles, Bool.not_true, Bool.false_eq_true, if_false]

variable (files : DirtyFiles)

/-- The walk shows what the scan of the eligible files keeps. -/
theorem calcVisibleFiles_eq :
    calcVisibleFiles files l checker toTxNum =
      showFiles ((files.items.filter fun item => decide (Eligible l checker toTxNum item)).foldl
        (pushMaximal FilesItem.isProperSubsetOf) []) := by
  rw [calcVisibleFiles]
  induction files.items using List.reverseRecOn with
  | nil => rfl
  | append_singleton items item ih =>
    rw [foldl_concat, ih, filter_append]
    by_cases hitem : Eligible l checker toTxNum item
    · simp [visibleStep_show hitem, hitem]
    · simp [visibleStep_skip hitem, hitem]

/-- The files that are eligible and inside no eligible file. -/
def maximalFiles (l : Accessors) (checker : Option (Nat → Nat → Bool))
    (toTxNum : Nat) : List FilesItem :=
  files.items.filter fun item => decide (Eligible l checker toTxNum item ∧
    ∀ other ∈ files.items, Eligible l checker toTxNum other →
      item.isProperSubsetOf other = false)

/-- The scan keeps the maximal files, and every eligible file lies in one. -/
theorem scan_eligible :
    (files.items.filter fun item => decide (Eligible l checker toTxNum item)).foldl
        (pushMaximal FilesItem.isProperSubsetOf) [] = maximalFiles files l checker toTxNum ∧
      ∀ item ∈ files.items, Eligible l checker toTxNum item →
        ∃ big ∈ maximalFiles files l checker toTxNum, item.range ⊆ big.range := by
  obtain ⟨hscan, hcover⟩ := foldl_pushMaximal_ranges FilesItem.startTxNum FilesItem.endTxNum _
    (fun _ _ => FilesItem.isProperSubsetOf_iff)
    ((files.ordered.filter fun item => decide (Eligible l checker toTxNum item)).imp
      filesItemLess_iff.mp)
  have hmaximal : (files.items.filter fun item => decide (Eligible l checker toTxNum item)).foldl
      (pushMaximal FilesItem.isProperSubsetOf) [] = maximalFiles files l checker toTxNum := by
    rw [hscan, filter_filter, maximalFiles]
    refine filter_congr fun item _ => ?_
    rw [Bool.eq_iff_iff]
    simp [and_comm, imp_iff_not_or]
  refine ⟨hmaximal, fun item hmem hitem => ?_⟩
  obtain ⟨big, hbig, hstart, hend⟩ := hcover item (mem_filter.mpr ⟨hmem, decide_eq_true hitem⟩)
  exact ⟨big, hmaximal ▸ hbig, Set.Ico_subset_Ico hstart hend⟩

/-- Any two files are disjoint or one is inside the other. -/
def Laminar (items : List FilesItem) : Prop :=
  ∀ i ∈ items, ∀ j ∈ items, Disjoint i.range j.range ∨ i.range ⊆ j.range ∨ j.range ⊆ i.range

/-- The bounds of the files decide whether a family is laminar. -/
theorem laminar_of_bounds {items : List FilesItem}
    (hbounds : ∀ i ∈ items, ∀ j ∈ items, i.endTxNum ≤ j.startTxNum ∨
      j.endTxNum ≤ i.startTxNum ∨
      (j.startTxNum ≤ i.startTxNum ∧ i.endTxNum ≤ j.endTxNum) ∨
      (i.startTxNum ≤ j.startTxNum ∧ j.endTxNum ≤ i.endTxNum)) : Laminar items := by
  intro i hi j hj
  rcases hbounds i hi j hj with hij | hji | ⟨hstart, hend⟩ | ⟨hstart, hend⟩
  · exact .inl (Set.Ico_disjoint_Ico.mpr (min_le_of_left_le (le_max_of_le_right hij)))
  · exact .inl (Set.Ico_disjoint_Ico.mpr (min_le_of_right_le (le_max_of_le_left hji)))
  · exact .inr (.inl (Set.Ico_subset_Ico hstart hend))
  · exact .inr (.inr (Set.Ico_subset_Ico hstart hend))

/-- Of two files in order, neither inside the other, the first ends first. -/
theorem end_le_start_of_laminar {i j : FilesItem} (hless : filesItemLess i j = true)
    (hfree : i.isProperSubsetOf j = false)
    (hlaminar : Disjoint i.range j.range ∨ i.range ⊆ j.range ∨ j.range ⊆ i.range) :
    i.endTxNum ≤ j.startTxNum := by
  rw [filesItemLess_iff] at hless
  rw [← Bool.not_eq_true, FilesItem.isProperSubsetOf_iff] at hfree
  -- an empty file ends before everything that starts behind it
  by_cases hi : i.startTxNum < i.endTxNum
  · by_cases hj : j.startTxNum < j.endTxNum
    · rcases hlaminar with hdisjoint | hinside | hinside
      · have := Set.Ico_disjoint_Ico.mp hdisjoint
        omega
      · have := (Set.Ico_subset_Ico_iff hi).mp hinside
        omega
      · have := (Set.Ico_subset_Ico_iff hj).mp hinside
        omega
    · omega
  · omega

variable {files : DirtyFiles}

theorem mem_maximalFiles {item : FilesItem} :
    item ∈ maximalFiles files l checker toTxNum ↔
      item ∈ files.items ∧ Eligible l checker toTxNum item ∧
        ∀ other ∈ files.items, Eligible l checker toTxNum other →
          item.isProperSubsetOf other = false := by
  rw [maximalFiles, mem_filter, decide_eq_true_iff]

theorem maximalFiles_disjoint (hlaminar : Laminar files.items) :
    (maximalFiles files l checker toTxNum).Pairwise fun i j =>
      i.endTxNum ≤ j.startTxNum := by
  refine (files.ordered.filter _).imp_of_mem fun {i j} hi hj hless => ?_
  obtain ⟨hmemi, -, hmaxi⟩ := mem_maximalFiles.mp hi
  obtain ⟨hmemj, heligible, -⟩ := mem_maximalFiles.mp hj
  exact end_le_start_of_laminar hless (hmaxi j hmemj heligible) (hlaminar i hmemi j hmemj)

/-! ### Garbage -/

theorem hasCoverVisibleFile_iff {visibleFiles : List VisibleItem} {item : FilesItem} :
    hasCoverVisibleFile visibleFiles item = true ↔
      ∃ f ∈ visibleFiles, item.isProperSubsetOf f.src = true := by
  rw [hasCoverVisibleFile, any_eq_true]

theorem isGarbage_contained {visibleFiles : List VisibleItem} {merged : Option FilesItem}
    {item : FilesItem} (hitem : isGarbage visibleFiles merged checker item = true) :
    item.frozen = false ∧ ((∃ f ∈ visibleFiles, item.isProperSubsetOf f.src = true) ∨
      ∃ big ∈ merged, item.isProperSubsetOf big = true) := by
  unfold isGarbage at hitem
  rw [← hasCoverVisibleFile_iff]
  split at hitem
  · cases hitem
  · rename_i hfrozen
    refine ⟨Bool.not_eq_true _ ▸ hfrozen, ?_⟩
    cases merged with
    | none => exact .inl hitem
    | some big =>
      dsimp only at hitem
      split at hitem
      · rename_i hbefore
        exact .inl (Bool.and_eq_true_iff.mp hbefore).2
      · split at hitem
        · rename_i hinside
          exact .inr ⟨big, rfl, hinside⟩
        · cases hitem

end Walk

/-- The visible files of a laminar family of dirty files are its maximal
eligible files, each after the other, and cover what the eligible files cover.
What is selected for deletion is covered by a bigger file. -/
theorem calcVisibleFiles_spec (files : DirtyFiles) (l : Accessors)
    (checker : Option (Nat → Nat → Bool)) (toTxNum : Nat)
    (hlaminar : Laminar files.items) :
    calcVisibleFiles files l checker toTxNum =
        showFiles (maximalFiles files l checker toTxNum) ∧
      (calcVisibleFiles files l checker toTxNum).Pairwise (fun f g =>
        f.endTxNum ≤ g.startTxNum) ∧
      (∀ n, (∃ f ∈ calcVisibleFiles files l checker toTxNum,
          f.startTxNum ≤ n ∧ n < f.endTxNum) ↔
        ∃ item ∈ files.items, Eligible l checker toTxNum item ∧
          item.startTxNum ≤ n ∧ n < item.endTxNum) ∧
      ∀ visibleFiles merged dependents,
        ∀ item ∈ garbage files visibleFiles merged dependents, item.frozen = false ∧
          ((∃ f ∈ visibleFiles, item.isProperSubsetOf f.src = true) ∨
            ∃ big ∈ merged, item.isProperSubsetOf big = true) := by
  have heq : calcVisibleFiles files l checker toTxNum =
      showFiles (maximalFiles files l checker toTxNum) := by
    rw [calcVisibleFiles_eq, (scan_eligible files).1]
  refine ⟨heq, ?_, ?_, ?_⟩
  · have hdisjoint : (maximalFiles files l checker toTxNum).Pairwise _ :=
      maximalFiles_disjoint hlaminar
    rw [← map_src_showFiles (maximalFiles files l checker toTxNum), pairwise_map]
      at hdisjoint
    rw [heq]
    refine hdisjoint.imp_of_mem fun hf hg hle => ?_
    rw [(mem_showFiles hf).2.2, (mem_showFiles hg).2.1]
    exact hle
  · intro n
    constructor
    · rintro ⟨f, hf, hn⟩
      obtain ⟨hsrc, hstart, hend⟩ := mem_showFiles (heq ▸ hf)
      obtain ⟨hmem, heligible, -⟩ := mem_maximalFiles.mp hsrc
      rw [hstart, hend] at hn
      exact ⟨f.src, hmem, heligible, hn⟩
    · rintro ⟨item, hmem, heligible, hn⟩
      obtain ⟨big, hbig, hsub⟩ := (scan_eligible files).2 item hmem heligible
      rw [← map_src_showFiles (maximalFiles files l checker toTxNum)] at hbig
      obtain ⟨f, hf, rfl⟩ := mem_map.mp hbig
      refine ⟨f, heq ▸ hf, ?_⟩
      rw [(mem_showFiles hf).2.1, (mem_showFiles hf).2.2]
      exact hsub hn
  · intro visibleFiles merged dependents item hitem
    exact isGarbage_contained (mem_filter.mp hitem).2

/-- A file with everything a reader needs. -/
def goodFile (startTxNum endTxNum : Nat) : FilesItem :=
  ⟨startTxNum, endTxNum, false, false, true, true, true, true⟩

/-- Two merged steps, whose small files are still there, and one more. -/
def mergedSteps : DirtyFiles where
  items := [goodFile 0 1, goodFile 1 2, goodFile 0 2, goodFile 2 3]
  ordered := by decide

theorem calcVisibleFiles_mergedSteps :
    calcVisibleFiles mergedSteps accessorHashMap none 3 =
        showFiles [goodFile 0 2, goodFile 2 3] ∧
      garbage mergedSteps (calcVisibleFiles mergedSteps accessorHashMap none 3) none none =
        [goodFile 0 1, goodFile 1 2] := by
  have hspec := calcVisibleFiles_spec mergedSteps accessorHashMap none 3
    (laminar_of_bounds (by decide))
  rw [hspec.1]
  exact ⟨by decide, by decide⟩

end Erigon

/-
Growing and merging of visible files.  Files appear one step at a time and
are merged as `findMergeRange` says; in every state they tile the covered
transactions with aligned blocks, and every merge joins whole files.
-/
import Erigon.MergeRange

namespace Erigon

open List

/-! ### Lowest set bit -/

/-- Every positive number is an odd multiple of a power of two. -/
theorem exists_odd_mul_two_pow {n : Nat} (hpos : 0 < n) : ∃ k m, n = (2 * m + 1) * 2 ^ k := by
  obtain ⟨k, m, hodd, hn⟩ := Nat.exists_eq_two_pow_mul_odd (Nat.pos_iff_ne_zero.mp hpos)
  obtain ⟨m, rfl⟩ := hodd
  exact ⟨k, m, by rw [hn, Nat.mul_comm]⟩

theorem lowestBit_eq {n : Nat} (hpos : 0 < n) (hn : n < 2 ^ 64) :
    ∃ k, lowestBit n = 2 ^ k ∧ 2 ^ k ∣ n := by
  obtain ⟨k, m, hk⟩ := exists_odd_mul_two_pow hpos
  refine ⟨k, ?_, Dvd.intro_left _ hk.symm⟩
  have hneg : sub64 0 n = 2 ^ 64 - (n - 1 + 1) := by
    rw [sub64, Nat.zero_add, Nat.sub_add_cancel hpos, Nat.mod_eq_of_lt (by omega)]
  have hpred : n - 1 = 2 ^ k * (2 * m) + (2 ^ k - 1) := by
    have hone : 1 ≤ 2 ^ k := Nat.one_le_two_pow
    have hmul : n = 2 ^ k * (2 * m) + 2 ^ k := by
      rw [hk, Nat.add_mul, Nat.one_mul, Nat.mul_comm]
    omega
  have hlt : 2 ^ k - 1 < 2 ^ k := Nat.sub_lt (Nat.two_pow_pos k) Nat.one_pos
  rw [lowestBit, hneg]
  apply Nat.eq_of_testBit_eq
  intro i
  rw [Nat.testBit_and, Nat.testBit_two_pow_sub_succ (by omega), hpred,
    Nat.testBit_two_pow_mul_add _ hlt, Nat.testBit_two_pow, hk, Nat.mul_comm,
    Nat.testBit_two_pow_mul]
  rcases Nat.lt_trichotomy i k with hik | rfl | hki
  · simp [hik, Nat.not_le.mpr hik, hik.ne']
  · have hi : i < 64 := by
      rw [← Nat.pow_lt_pow_iff_right (show 1 < 2 by decide)]
      exact Nat.lt_of_le_of_lt (Nat.le_of_dvd hpos (Dvd.intro_left _ hk.symm)) hn
    simp [hi]
  · -- Above the lowest bit a number and its predecessor agree.
    obtain ⟨d, rfl⟩ := Nat.exists_eq_add_of_lt hki
    have hodd : (2 * m + 1).testBit (d + 1) = m.testBit d := by
      rw [Nat.testBit_succ, show (2 * m + 1) / 2 = m by omega]
    have heven : (2 * m).testBit (d + 1) = m.testBit d := by
      rw [Nat.testBit_succ, show 2 * m / 2 = m by omega]
    rw [show k + d + 1 - k = d + 1 by omega, hodd, heven]
    cases m.testBit d <;> simp [show ¬ k + d + 1 < k by omega, show k ≠ k + d + 1 by omega]

/-! ### Tilings by files -/

/-- The files from `a` to `b`. -/
abbrev FilesTile (a : Nat) (files : List VisibleFile) (b : Nat) : Prop :=
  Tiles VisibleFile.startTxNum VisibleFile.endTxNum a files b

/-- Files that tile all covered transactions with aligned blocks of steps. -/
structure Tiled (stepSize : Nat) (files : List VisibleFile) : Prop where
  tiles : FilesTile 0 files (filesEndTxNum files)
  aligned : ∀ item ∈ files, Aligned stepSize item.startTxNum item.endTxNum
  bounded : filesEndTxNum files < 2 ^ 64

/-- A range made of at least two whole files that follow one another. -/
def JoinsFiles (files : List VisibleFile) (r : MergeRange) : Prop :=
  ∃ pre mid post, files = pre ++ (mid ++ post) ∧ 2 ≤ mid.length ∧
    FilesTile 0 pre r.fromTxNum ∧ FilesTile r.fromTxNum mid r.toTxNum ∧
    FilesTile r.toTxNum post (filesEndTxNum files)

/-- Put one merged file in the place of the files inside its range. -/
def replaceRange (files : List VisibleFile) (r : MergeRange) : List VisibleFile :=
  files.filter (fun item => decide (item.startTxNum < r.fromTxNum)) ++
    ⟨r.fromTxNum, r.toTxNum⟩ :: files.filter fun item =>
      decide (r.fromTxNum ≤ item.startTxNum ∧ r.toTxNum < item.endTxNum)

theorem filesEndTxNum_of_tiles {files : List VisibleFile} {b : Nat}
    (htiles : FilesTile 0 files b) : filesEndTxNum files = b := by
  rcases eq_nil_or_concat' files with rfl | ⟨init, last, rfl⟩
  · exact htiles
  · obtain ⟨c, -, -, -, hend⟩ := tiles_append_iff.mp htiles
    have hlast : last.endTxNum = b := hend
    simpa [filesEndTxNum] using hlast

section Replace

variable {stepSize : Nat} {pre mid post : List VisibleFile} {r : MergeRange} {b : Nat}

theorem filter_of_tiles {a b : Nat} {files : List VisibleFile} (htiles : FilesTile a files b)
    {p : VisibleFile → Bool} {k : Bool} (hp : ∀ item : VisibleFile, a ≤ item.startTxNum →
      item.startTxNum < item.endTxNum → item.endTxNum ≤ b → p item = k) :
    files.filter p = if k then files else [] := by
  have hall : ∀ item ∈ files, p item = k := by
    intro item hitem
    obtain ⟨hstart, hlt, hend⟩ := htiles.bounds hitem
    exact hp item hstart hlt hend
  cases k with
  | true => exact filter_eq_self.mpr hall
  | false => exact filter_eq_nil_iff.mpr fun item hitem => by simp [hall item hitem]

/-- Files in front of the range are kept, those inside it go, and those behind
it are kept. -/
theorem replaceRange_eq (hpre : FilesTile 0 pre r.fromTxNum)
    (hmid : FilesTile r.fromTxNum mid r.toTxNum) (hpost : FilesTile r.toTxNum post b) :
    replaceRange (pre ++ (mid ++ post)) r =
      pre ++ ⟨r.fromTxNum, r.toTxNum⟩ :: post := by
  have hle := hmid.le
  simp only [replaceRange, filter_append]
  rw [filter_of_tiles hpre (k := true), filter_of_tiles hmid (k := false),
    filter_of_tiles hpost (k := false), filter_of_tiles hpre (k := false),
    filter_of_tiles hmid (k := false), filter_of_tiles hpost (k := true)]
  · simp
  all_goals
    intro item hstart hlt hend
    simp only [decide_eq_true_iff, decide_eq_false_iff_not]
    omega

end Replace

/-! ### Ranges chosen by the loops -/

/-- A range that ends with some file and starts a span before that end, inside
an earlier file. -/
def ChosenFrom (span : VisibleFile → Nat) (files : List VisibleFile) (r : MergeRange) :
    Prop :=
  r.needMerge = true → ∃ item ∈ files, r.toTxNum = item.endTxNum ∧
    r.fromTxNum = item.endTxNum - span item ∧ r.fromTxNum < item.startTxNum

section Choice

variable {stepSize : Nat}

variable {files : List VisibleFile} {r : MergeRange}

theorem domainMergeStep_chosen {item : VisibleFile} (hitem : item ∈ files)
    (hr : ChosenFrom (mergeSpan stepSize) files r) :
    ChosenFrom (mergeSpan stepSize) files (domainMergeStep stepSize r item) := by
  rw [domainMergeStep]
  split
  · exact hr
  · split
    · exact hr
    · intro _
      exact ⟨item, hitem, rfl, rfl, by simp only; omega⟩

theorem indexMergeStep_chosen {maxEndTxNum maxSpan : Nat} {item : VisibleFile}
    (hitem : item ∈ files)
    (hr : ChosenFrom (fun item => min (mergeSpan stepSize item) maxSpan) files r) :
    ChosenFrom (fun item => min (mergeSpan stepSize item) maxSpan) files
      (indexMergeStep stepSize maxEndTxNum maxSpan r item) := by
  rw [indexMergeStep]
  split
  · exact hr
  · dsimp only
    split
    · exact fun hneed => absurd hneed Bool.false_ne_true
    · split
      · exact hr
      · split
        · exact hr
        · intro _
          exact ⟨item, hitem, rfl, rfl, by simp only; omega⟩

theorem chosen_zero (span : VisibleFile → Nat) (files : List VisibleFile) :
    ChosenFrom span files .zero :=
  fun hneed => absurd hneed Bool.false_ne_true

theorem domainFindMergeRange_chosen (files : List VisibleFile) (maxEndTxNum : Nat) :
    ChosenFrom (mergeSpan stepSize) files
      (domainFindMergeRange stepSize files maxEndTxNum) :=
  List.foldlRecOn _ _ (chosen_zero _ _) fun _ hr _ hitem =>
    domainMergeStep_chosen (takeWhile_subset _ hitem) hr

theorem indexMergeLoop_chosen (stepSize : Nat) (files : List VisibleFile)
    (maxEndTxNum maxSpan : Nat) :
    ChosenFrom (fun item => min (mergeSpan stepSize item) maxSpan) files
      (indexMergeLoop stepSize files maxEndTxNum maxSpan) :=
  List.foldlRecOn _ _ (chosen_zero _ _) fun _ hr _ hitem => indexMergeStep_chosen hitem hr

/-- A range chosen by one of the loops is not empty. -/
theorem ChosenFrom.lt {span : VisibleFile → Nat} (hchosen : ChosenFrom span files r)
    (hfiles : ∀ item ∈ files, item.startTxNum < item.endTxNum) (hneed : r.needMerge = true) :
    r.fromTxNum < r.toTxNum := by
  obtain ⟨item, hitem, hto, -, hlt⟩ := hchosen hneed
  have := hfiles item hitem
  omega

end Choice

section Spans

variable {stepSize : Nat} {files : List VisibleFile}

/-- The span of a file is an aligned number of steps. -/
theorem mergeSpan_eq (hstep : 0 < stepSize) (htiled : Tiled stepSize files)
    {item : VisibleFile} (hitem : item ∈ files) :
    ∃ j, mergeSpan stepSize item = 2 ^ j * stepSize ∧
      2 ^ j * stepSize ∣ item.endTxNum := by
  obtain ⟨k, m, -, hend⟩ := htiled.aligned item hitem
  obtain ⟨-, hlt, hle⟩ := htiled.tiles.bounds hitem
  have hbound := htiled.bounded
  have hsteps : item.endTxNum / stepSize = (m + 1) * 2 ^ k := by
    rw [hend, ← Nat.mul_assoc, Nat.mul_div_cancel _ hstep]
  have hdiv : item.endTxNum / stepSize ≤ item.endTxNum := Nat.div_le_self _ _
  obtain ⟨j, hbit, hdvd⟩ := lowestBit_eq (n := item.endTxNum / stepSize)
    (by rw [hsteps]; positivity) (by omega)
  refine ⟨j, by rw [mergeSpan, hbit], ?_⟩
  rw [hend, ← Nat.mul_assoc, ← hsteps]
  exact Nat.mul_dvd_mul_right hdvd stepSize

theorem cappedSpan_eq (hstep : 0 < stepSize) (htiled : Tiled stepSize files)
    {item : VisibleFile} (hitem : item ∈ files) (c : Nat) :
    ∃ j, min (mergeSpan stepSize item) (2 ^ c * stepSize) = 2 ^ j * stepSize ∧
      2 ^ j * stepSize ∣ item.endTxNum := by
  obtain ⟨j, hspan, hdvd⟩ := mergeSpan_eq hstep htiled hitem
  rw [hspan]
  rcases Nat.le_total j c with hjc | hcj
  · exact ⟨j, Nat.min_eq_left (Nat.mul_le_mul_right _ (Nat.pow_le_pow_right (by decide) hjc)),
      hdvd⟩
  · exact ⟨c, Nat.min_eq_right (Nat.mul_le_mul_right _ (Nat.pow_le_pow_right (by decide) hcj)),
      (Nat.mul_dvd_mul_right (Nat.pow_dvd_pow 2 hcj) stepSize).trans hdvd⟩

/-- A chosen range is an aligned block of whole files. -/
theorem ChosenFrom.joins {span : VisibleFile → Nat} {r : MergeRange}
    (htiled : Tiled stepSize files) (hchosen : ChosenFrom span files r)
    (hspan : ∀ item ∈ files, ∃ j, span item = 2 ^ j * stepSize ∧
      2 ^ j * stepSize ∣ item.endTxNum) (hneed : r.needMerge = true) :
    JoinsFiles files r ∧ Aligned stepSize r.fromTxNum r.toTxNum := by
  obtain ⟨item, hitem, hto, hfrom, hlt⟩ := hchosen hneed
  obtain ⟨j, hj, m, hm⟩ := hspan item hitem
  have hpos : 0 < item.endTxNum := by
    have := htiled.tiles.bounds hitem
    omega
  obtain ⟨m, rfl⟩ : ∃ d, m = d + 1 := by
    refine ⟨m - 1, (Nat.sub_add_cancel (Nat.pos_of_ne_zero ?_)).symm⟩
    rintro rfl
    omega
  have hfrom' : r.fromTxNum = 2 ^ j * stepSize * m := by
    rw [hfrom, hj, hm, Nat.mul_succ, Nat.add_sub_cancel]
  constructor
  · rw [JoinsFiles, hto]
    exact htiled.tiles.cut_block htiled.aligned hitem ⟨m, hfrom'⟩
      (by rw [hfrom', hm, Nat.mul_succ]) hlt
  · exact ⟨j, m, by rw [hfrom', Nat.mul_comm], by rw [hto, hm, Nat.mul_comm]⟩

end Spans

/-! ### Runs -/

section Runs

variable (stepSize : Nat) (choose : List VisibleFile → Nat → Option MergeRange)

/-- A change of the visible files: the next one-step file appears, as long as
its end is a `uint64`, or the files of a chosen range are merged. -/
inductive FileStep : List VisibleFile → List VisibleFile → Prop
  | append (files : List VisibleFile) (hroom : filesEndTxNum files + stepSize < 2 ^ 64) :
      FileStep files
        (files ++ [⟨filesEndTxNum files, filesEndTxNum files + stepSize⟩])
  | merge (files : List VisibleFile) (maxEndTxNum : Nat) (r : MergeRange)
      (hchoose : choose files maxEndTxNum = some r) (hneed : r.needMerge = true) :
      FileStep files (replaceRange files r)

/-- Visible files that arise from none by appending and merging. -/
def ReachableFiles (files : List VisibleFile) : Prop :=
  Relation.ReflTransGen (FileStep stepSize choose) [] files

/-- `n` merges in a row. -/
inductive MergeChain : Nat → List VisibleFile → List VisibleFile → Prop
  | refl (files : List VisibleFile) : MergeChain 0 files files
  | merge {n : Nat} {first files : List VisibleFile} (maxEndTxNum : Nat) (r : MergeRange)
      (hchain : MergeChain n first files)
      (hchoose : choose files maxEndTxNum = some r) (hneed : r.needMerge = true) :
      MergeChain (n + 1) first (replaceRange files r)

/-- On tiled files a choice does not fail, and what it wants merged is an
aligned block of whole files. -/
def SoundChoice : Prop :=
  ∀ files, Tiled stepSize files → ∀ maxEndTxNum, ∃ r, choose files maxEndTxNum = some r ∧
    (r.needMerge = true → JoinsFiles files r ∧ Aligned stepSize r.fromTxNum r.toTxNum)

variable {stepSize choose}

theorem tiled_nil : Tiled stepSize [] where
  tiles := rfl
  aligned := fun _ hitem => absurd hitem not_mem_nil
  bounded := by decide

variable {files : List VisibleFile}

theorem Tiled.append (htiled : Tiled stepSize files) (hstep : 0 < stepSize)
    (hroom : filesEndTxNum files + stepSize < 2 ^ 64) :
    Tiled stepSize (files ++ [⟨filesEndTxNum files, filesEndTxNum files + stepSize⟩]) := by
  have htiles : FilesTile 0
      (files ++ [⟨filesEndTxNum files, filesEndTxNum files + stepSize⟩])
      (filesEndTxNum files + stepSize) :=
    htiled.tiles.append ⟨rfl, by simpa using hstep, rfl⟩
  have hend := filesEndTxNum_of_tiles htiles
  refine ⟨hend.symm ▸ htiles, fun item hitem => ?_, hend.symm ▸ hroom⟩
  rcases mem_append.mp hitem with hitem | hitem
  · exact htiled.aligned item hitem
  · obtain rfl := mem_singleton.mp hitem
    -- The end of the files is a whole number of steps.
    have hdvd : stepSize ∣ filesEndTxNum files := by
      rcases eq_nil_or_concat' files with rfl | ⟨init, last, rfl⟩
      · exact dvd_zero _
      · obtain ⟨k, m, -, hlast⟩ := htiled.aligned last (by simp)
        rw [show filesEndTxNum (init ++ [last]) = last.endTxNum by simp [filesEndTxNum],
          hlast, ← Nat.mul_assoc]
        exact Dvd.intro_left _ rfl
    obtain ⟨m, hm⟩ := hdvd
    refine ⟨0, m, ?_, ?_⟩
    · rw [hm, Nat.pow_zero, Nat.one_mul, Nat.mul_comm]
    · rw [hm, Nat.pow_zero, Nat.one_mul, Nat.succ_mul, Nat.mul_comm]

/-- A merge keeps the tiling and leaves fewer files. -/
theorem Tiled.replaceRange {r : MergeRange} (htiled : Tiled stepSize files)
    (hjoins : JoinsFiles files r) (haligned : Aligned stepSize r.fromTxNum r.toTxNum) :
    Tiled stepSize (replaceRange files r) ∧
      (Erigon.replaceRange files r).length < files.length := by
  obtain ⟨pre, mid, post, rfl, htwo, hpre, hmid, hpost⟩ := hjoins
  have hlt : r.fromTxNum < r.toTxNum := by
    cases mid with
    | nil => simp at htwo
    | cons item mid =>
      obtain ⟨hstart, hlt, hrest⟩ := hmid
      have := hrest.le
      omega
  rw [replaceRange_eq hpre hmid hpost]
  have htiles : FilesTile 0 (pre ++ ⟨r.fromTxNum, r.toTxNum⟩ :: post)
      (filesEndTxNum (pre ++ (mid ++ post))) := hpre.append ⟨rfl, hlt, hpost⟩
  have hend := filesEndTxNum_of_tiles htiles
  refine ⟨⟨hend.symm ▸ htiles, fun item hitem => ?_, hend.symm ▸ htiled.bounded⟩, ?_⟩
  · rcases mem_append.mp hitem with hitem | hitem
    · exact htiled.aligned item (by simp [hitem])
    · rcases mem_cons.mp hitem with rfl | hitem
      · exact haligned
      · exact htiled.aligned item (by simp [hitem])
  · simp only [length_append, length_cons]
    omega

theorem FileStep.tiled (hstep : 0 < stepSize) (hsound : SoundChoice stepSize choose)
    {files' : List VisibleFile} (hmove : FileStep stepSize choose files files')
    (htiled : Tiled stepSize files) : Tiled stepSize files' := by
  cases hmove with
  | append hroom => exact htiled.append hstep hroom
  | merge maxEndTxNum r hchoose hneed =>
    obtain ⟨r', hr', hmerge⟩ := hsound files htiled maxEndTxNum
    obtain rfl : r' = r := Option.some.inj (hr'.symm.trans hchoose)
    exact (htiled.replaceRange (hmerge hneed).1 (hmerge hneed).2).1

theorem ReachableFiles.tiled (hstep : 0 < stepSize) (hsound : SoundChoice stepSize choose)
    (hreach : ReachableFiles stepSize choose files) :
    Tiled stepSize files := by
  induction hreach with
  | refl => exact tiled_nil
  | tail _ hmove ih => exact hmove.tiled hstep hsound ih

/-- Every merge of a chain uses up at least one file. -/
theorem MergeChain.bound (hsound : SoundChoice stepSize choose) {n : Nat} {first : List VisibleFile}
    (hchain : MergeChain choose n first files) (hfirst : Tiled stepSize first) :
    Tiled stepSize files ∧ n + files.length ≤ first.length := by
  induction hchain with
  | refl files => exact ⟨hfirst, (Nat.zero_add _).le⟩
  | merge maxEndTxNum r _ hchoose hneed ih =>
    obtain ⟨htiled, hbound⟩ := ih hfirst
    obtain ⟨r', hr', hmerge⟩ := hsound _ htiled maxEndTxNum
    obtain rfl : r' = r := Option.some.inj (hr'.symm.trans hchoose)
    obtain ⟨htiled', hlt⟩ := htiled.replaceRange (hmerge hneed).1 (hmerge hneed).2
    exact ⟨htiled', by omega⟩

end Runs

/-- `InvertedIndexRoTx.findMergeRange` with spans up to `2 ^ c` steps. -/
def indexChoice (stepSize c : Nat) (files : List VisibleFile) (maxEndTxNum : Nat) :
    Option MergeRange :=
  indexFindMergeRange stepSize files maxEndTxNum (2 ^ c * stepSize)

/-- The values part of `DomainRoTx.findMergeRange`, which has no cap. -/
def domainChoice (stepSize : Nat) (files : List VisibleFile) (maxEndTxNum : Nat) :
    Option MergeRange :=
  some (domainFindMergeRange stepSize files maxEndTxNum)

section Main

variable {stepSize : Nat}

theorem indexFindMergeRange_eq {files : List VisibleFile} (htiled : Tiled stepSize files)
    (maxEndTxNum maxSpan : Nat) :
    indexFindMergeRange stepSize files maxEndTxNum maxSpan =
      some (indexMergeLoop stepSize files maxEndTxNum maxSpan) := by
  have hchosen := indexMergeLoop_chosen stepSize files maxEndTxNum maxSpan
  rw [indexFindMergeRange, if_neg]
  rintro ⟨hneed, heq⟩
  have := hchosen.lt (fun item hitem => (htiled.tiles.bounds hitem).2.1) hneed
  omega

theorem indexChoice_sound (hstep : 0 < stepSize) (c : Nat) :
    SoundChoice stepSize (indexChoice stepSize c) := by
  intro files htiled maxEndTxNum
  exact ⟨_, indexFindMergeRange_eq htiled maxEndTxNum _,
    (indexMergeLoop_chosen stepSize files maxEndTxNum _).joins htiled
      fun item hitem => cappedSpan_eq hstep htiled hitem c⟩

theorem domainChoice_sound (hstep : 0 < stepSize) :
    SoundChoice stepSize (domainChoice stepSize) := by
  intro files htiled maxEndTxNum
  exact ⟨_, rfl, (domainFindMergeRange_chosen files maxEndTxNum).joins htiled
    fun item hitem => mergeSpan_eq hstep htiled hitem⟩

theorem indexMergeLoop_span {files : List VisibleFile} {maxEndTxNum maxSpan : Nat}
    (hneed : (indexMergeLoop stepSize files maxEndTxNum maxSpan).needMerge = true) :
    (indexMergeLoop stepSize files maxEndTxNum maxSpan).toTxNum -
      (indexMergeLoop stepSize files maxEndTxNum maxSpan).fromTxNum ≤ maxSpan := by
  obtain ⟨item, -, hto, hfrom, -⟩ :=
    indexMergeLoop_chosen stepSize files maxEndTxNum maxSpan hneed
  have hcap := Nat.min_le_right (mergeSpan stepSize item) maxSpan
  dsimp only at hfrom
  omega

/-- Whatever the order of appending and merging, the visible files tile the
covered transactions with aligned blocks, `findMergeRange` does not fail, and
the range it wants merged joins at least two whole files, for an index no more
than its cap.  So a merge leaves fewer files, and no more merges than files
can follow one another. -/
theorem visibleFiles_stay_tiled (hstep : 0 < stepSize) (c : Nat) :
    (∀ files, ReachableFiles stepSize (indexChoice stepSize c) files →
      Tiled stepSize files ∧
      (∀ maxEndTxNum, ∃ r,
        indexFindMergeRange stepSize files maxEndTxNum (2 ^ c * stepSize) = some r ∧
        (r.needMerge = true → JoinsFiles files r ∧
          r.toTxNum - r.fromTxNum ≤ 2 ^ c * stepSize ∧
          (replaceRange files r).length < files.length)) ∧
      ∀ n files', MergeChain (indexChoice stepSize c) n files files' →
        n + files'.length ≤ files.length) ∧
    (∀ files, ReachableFiles stepSize (domainChoice stepSize) files →
      Tiled stepSize files ∧
      (∀ maxEndTxNum,
        (domainFindMergeRange stepSize files maxEndTxNum).needMerge = true →
        JoinsFiles files (domainFindMergeRange stepSize files maxEndTxNum) ∧
          (replaceRange files (domainFindMergeRange stepSize files maxEndTxNum)).length <
            files.length) ∧
      ∀ n files', MergeChain (domainChoice stepSize) n files files' →
        n + files'.length ≤ files.length) := by
  constructor
  · intro files hreach
    have htiled := hreach.tiled hstep (indexChoice_sound hstep c)
    refine ⟨htiled, fun maxEndTxNum => ?_, fun n files' hchain =>
      (hchain.bound (indexChoice_sound hstep c) htiled).2⟩
    obtain ⟨r, hr, hmerge⟩ := indexChoice_sound hstep c files htiled maxEndTxNum
    refine ⟨r, hr, fun hneed => ?_⟩
    obtain ⟨hjoins, haligned⟩ := hmerge hneed
    refine ⟨hjoins, ?_, (htiled.replaceRange hjoins haligned).2⟩
    have hloop := indexFindMergeRange_eq htiled maxEndTxNum (2 ^ c * stepSize)
    obtain rfl := Option.some.inj (hloop.symm.trans hr)
    exact indexMergeLoop_span hneed
  · intro files hreach
    have htiled := hreach.tiled hstep (domainChoice_sound hstep)
    refine ⟨htiled, fun maxEndTxNum hneed => ?_, fun n files' hchain =>
      (hchain.bound (domainChoice_sound hstep) htiled).2⟩
    obtain ⟨r, hr, hmerge⟩ := domainChoice_sound hstep files htiled maxEndTxNum
    obtain rfl := Option.some.inj hr
    obtain ⟨hjoins, haligned⟩ := hmerge hneed
    exact ⟨hjoins, (htiled.replaceRange hjoins haligned).2⟩

/-- Two one-step files are reachable, and a cap of two steps has them merged. -/
theorem visibleFiles_stay_tiled_two :
    ReachableFiles 1 (indexChoice 1 1) [⟨0, 1⟩, ⟨1, 2⟩] ∧
      JoinsFiles [⟨0, 1⟩, ⟨1, 2⟩] ⟨true, 0, 2⟩ := by
  have hreach : ReachableFiles 1 (indexChoice 1 1) [⟨0, 1⟩, ⟨1, 2⟩] :=
    .tail (.tail .refl (.append [] (by decide))) (.append [⟨0, 1⟩] (by decide))
  refine ⟨hreach, ?_⟩
  obtain ⟨r, hr, hmerge⟩ :=
    ((visibleFiles_stay_tiled Nat.one_pos 1).1 _ hreach).2.1 2
  have hchoice : indexFindMergeRange 1 [⟨0, 1⟩, ⟨1, 2⟩] 2 (2 ^ 1 * 1) =
      some ⟨true, 0, 2⟩ := by decide
  obtain rfl := Option.some.inj (hr.symm.trans hchoice)
  exact (hmerge rfl).1

end Main

end Erigon

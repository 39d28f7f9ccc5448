/-
What `HistoryRange` yields when a history is split between files and the table.
The stream over the files is the patch of the changes in them if both bounds are
given, and empty otherwise.  Where a key changed on both sides the union takes what
the table has.
-/
import Erigon.HistoryRangeTable

namespace Erigon

open List Option

/-- The changes from a transaction on. -/
def recent (h : History) (E : Nat) : History := fun k n => if E ≤ n then h k n else none

/-- The files cover the transactions before `E` and have all changes in them; the
others are in the table. -/
structure HistorySplit (h : History) (ht : HistoryRoTx) (E : Nat) : Prop where
  tiles : Tiles (fun f : HistoryFile => f.startTxNum) (fun f => f.endTxNum) 0 ht.files E
  ascending : ∀ f ∈ ht.files, ∀ a ∈ f.sequences.pairs, a.2.Pairwise (· < ·)
  mem_sequences : ∀ f ∈ ht.files, ∀ k n, (∃ xs, (k, xs) ∈ f.sequences.pairs ∧ n ∈ xs) ↔
    n ∈ Set.Ico f.startTxNum f.endTxNum ∧ (h k n).isSome
  values : ∀ f ∈ ht.files, ∀ k n v, n ∈ Set.Ico f.startTxNum f.endTxNum → h k n = some v →
    f.lookup2 n k = some v
  table : HistoryChangesIterDB.Holds (recent h E) ht.values

theorem exists_isLeast {s : Set Nat} (hs : s.Nonempty) : ∃ n, IsLeast s n :=
  ⟨sInf s, Nat.sInf_mem hs, fun _ hm => Nat.sInf_le hm⟩

/-- The least element of a set in two parts of which one comes first. -/
theorem isLeast_union_iff {s t : Set Nat} (hst : ∀ m ∈ s, ∀ n ∈ t, m < n) {n : Nat} :
    IsLeast (s ∪ t) n ↔ IsLeast s n ∨ s = ∅ ∧ IsLeast t n := by
  constructor
  · rintro ⟨hn | hn, hleast⟩
    · exact .inl ⟨hn, fun m hm => hleast (.inl hm)⟩
    · refine .inr ⟨Set.eq_empty_iff_forall_notMem.mpr fun m hm => ?_, hn, fun m hm => hleast (.inr hm)⟩
      exact (hleast (.inl hm)).not_gt (hst m hm n hn)
  · rintro (⟨hn, hleast⟩ | ⟨rfl, hleast⟩)
    · refine ⟨.inl hn, fun m hm => ?_⟩
      rcases hm with hm | hm
      · exact hleast hm
      · exact (hst n hn m hm).le
    · rwa [Set.empty_union]

theorem isLeast_changesIn_union {h : History} {S T : Set Nat} (hst : ∀ m ∈ S, ∀ n ∈ T, m < n)
    {k : Bytes} {n : Nat} : IsLeast (changesIn h (S ∪ T) k) n ↔
      IsLeast (changesIn h S k) n ∨ changesIn h S k = ∅ ∧ IsLeast (changesIn h T k) n := by
  have hunion : changesIn h (S ∪ T) k = changesIn h S k ∪ changesIn h T k := by
    ext m
    exact or_and_right
  rw [hunion]
  exact isLeast_union_iff fun m hm n hn => hst m hm.1 n hn.1

theorem yields_nextOrEmpty {X T : Type} {next : X → Option (T × X)} {x : X} {items : List T}
    (h : Yields next x items) : Yields (nextOrEmpty next) (some x) items :=
  h.within (f := some) fun _ => rfl

/-! ### The files -/

namespace HistoryChangesIterFiles

variable (startTxNum : Nat) (endTxNum : Int)

/-- What an item is taken for. -/
def accept (e : ReconEntry) : Option Bytes :=
  (seekSeq e.val startTxNum).bind fun txNum =>
    if endTxNum ≤ toInt txNum then none else e.file.lookup2 txNum e.key

theorem verdict_follows {startTxNum : Nat} {endTxNum : Int} {e : ReconEntry}
    (hlookup : ∀ n ∈ e.val, (e.file.lookup2 n e.key).isSome) :
    ReconIter.Follows (verdict startTxNum endTxNum) (accept startTxNum endTxNum) e := by
  intro last
  rw [verdict, accept]
  by_cases hkey : e.key = last.getD []
  · rw [if_pos hkey, if_pos hkey]
  · rw [if_neg hkey, if_neg hkey]
    cases hseek : seekSeq e.val startTxNum with
    | none => rfl
    | some n =>
      obtain ⟨v, hv⟩ := isSome_iff_exists.mp
        (hlookup n (mem_of_find?_eq_some hseek))
      dsimp only [bind_some]
      by_cases hend : endTxNum ≤ toInt n
      · rw [if_pos hend, if_pos hend]
        rfl
      · rw [if_neg hend, if_neg hend, hv]
        rfl

/-- What a file has for a key. -/
def fileReport (k : Bytes) (f : HistoryFile) :
    Option Bytes :=
  (withKey Prod.fst k f.sequences.pairs).findSome? fun a =>
    accept startTxNum endTxNum (ReconIter.entry f a)

theorem fileReport_eq (k : Bytes) (f : HistoryFile) :
    fileReport startTxNum endTxNum k f =
      (f.sequences.get k).bind fun xs => accept startTxNum endTxNum ⟨f, k, xs⟩ := by
  rw [fileReport, SortedPairs.withKey_pairs]
  cases f.sequences.get k with
  | none => rfl
  | some xs => simp [ReconIter.entry]

theorem changedReaders_sublist (fromTxNum toTxNum : Int) (files : List HistoryFile) :
    (changedReaders fromTxNum toTxNum files).Sublist
      (files.map fun f => (f, f.sequences.pairs)) := by
  induction files with
  | nil => exact .slnil
  | cons f files ih =>
    rw [changedReaders, map_cons]
    split
    · exact ih.cons _
    · split
      · exact nil_sublist _
      · exact ih.cons_cons _

section Split

variable {h : History} {ht : HistoryRoTx} {E : Nat} (hsplit : HistorySplit h ht E)
  {fromTxNum toTxNum : Int}

variable {k v : Bytes} {s : Nat}

include hsplit

theorem mem_sequence {f : HistoryFile} (hf : f ∈ ht.files) {xs : List Nat}
    (hget : f.sequences.get k = some xs) {n : Nat} :
    n ∈ xs ↔ n ∈ Set.Ico f.startTxNum f.endTxNum ∧ (h k n).isSome := by
  rw [← hsplit.mem_sequences f hf k n]
  refine ⟨fun hn => ⟨xs, f.sequences.get_eq_some.mp hget, hn⟩, ?_⟩
  rintro ⟨ys, hys, hn⟩
  rw [← f.sequences.get_eq_some, hget, some.injEq] at hys
  exact hys ▸ hn

theorem endTxNum_ordered :
    (changedReaders fromTxNum toTxNum ht.files).Pairwise
      fun r s => r.1.endTxNum < s.1.endTxNum := by
  refine List.Pairwise.sublist (changedReaders_sublist _ _ _) (pairwise_map.mpr ?_)
  refine hsplit.tiles.pairwise.imp_of_mem fun _ hg hle => ?_
  exact hle.trans_lt (hsplit.tiles.bounds hg).2.1

theorem filesEnd_eq (hfiles : ht.files ≠ []) : historyFilesEnd ht.files = E := by
  rw [historyFilesEnd]
  cases hlast : ht.files.getLast? with
  | none => exact absurd (getLast?_eq_none_iff.mp hlast) hfiles
  | some f => exact hsplit.tiles.hi_getLast hlast

variable (hfit : TxNumsFit h)

include hfit

/-- A file reports its first change from the start on, if this is before the end. -/
theorem fileReport_iff {f : HistoryFile} (hf : f ∈ ht.files) :
    fileReport s toTxNum k f = some v ↔
      ∃ n, IsLeast (changesIn h (Set.Ici s ∩ Set.Ico f.startTxNum f.endTxNum) k) n ∧
        n < toTxNum ∧ h k n = some v := by
  rw [fileReport_eq]
  cases hget : f.sequences.get k with
  | none =>
    refine iff_of_false (by simp) ?_
    rintro ⟨n, ⟨⟨⟨-, hn⟩, hsome⟩, -⟩, -⟩
    obtain ⟨xs, hxs, -⟩ := (hsplit.mem_sequences f hf k n).mpr ⟨hn, hsome⟩
    rw [← f.sequences.get_eq_some, hget] at hxs
    cases hxs
  | some xs =>
    have hmem : ∀ {n}, n ∈ xs ↔ n ∈ Set.Ico f.startTxNum f.endTxNum ∧ (h k n).isSome :=
      mem_sequence hsplit hf hget
    have hleast : ∀ n, seekSeq xs s = some n ↔
        IsLeast (changesIn h (Set.Ici s ∩ Set.Ico f.startTxNum f.endTxNum) k) n := by
      intro n
      rw [seekSeq, find?_le_eq_some (hsplit.ascending f hf _ (f.sequences.get_eq_some.mp hget))]
      refine and_congr ?_ ⟨fun hall m hm => ?_, fun hall m hm hsm => ?_⟩
      · rw [hmem]
        exact ⟨fun ⟨⟨hn, hsome⟩, hs⟩ => ⟨⟨hs, hn⟩, hsome⟩,
          fun ⟨⟨hs, hn⟩, hsome⟩ => ⟨⟨hn, hsome⟩, hs⟩⟩
      · exact hall m (hmem.mpr ⟨hm.1.2, hm.2⟩) hm.1.1
      · exact hall ⟨⟨hsm, (hmem.mp hm).1⟩, (hmem.mp hm).2⟩
    rw [bind_some, accept, bind_eq_some_iff]
    refine exists_congr fun n => ?_
    rw [hleast n]
    refine and_congr_right fun hn => ?_
    obtain ⟨w, hw⟩ := isSome_iff_exists.mp hn.1.2
    rw [ite_none_left_eq_some, toInt_eq (hfit k n hn.1.2), not_le,
      hsplit.values f hf k n w hn.1.1.2 hw, hw]

/-- The first file that reports something has the first change. -/
theorem findSome?_fileReport {a b : Nat} {files : List HistoryFile}
    (hfiles : ∀ f ∈ files, f ∈ ht.files)
    (htiles : Tiles (fun f : HistoryFile => f.startTxNum) (fun f => f.endTxNum) a files b) :
    files.findSome? (fileReport s toTxNum k) = some v ↔
      ∃ n, IsLeast (changesIn h (Set.Ici s ∩ Set.Ico a b) k) n ∧ n < toTxNum ∧ h k n = some v := by
  induction files generalizing a with
  | nil =>
    refine iff_of_false (by simp) ?_
    rintro ⟨n, ⟨⟨⟨-, hlo, hhi⟩, -⟩, -⟩, -⟩
    have hab : a = b := htiles
    omega
  | cons f files ih =>
    rw [forall_mem_cons] at hfiles
    obtain ⟨hstart, hlt, hrest⟩ := htiles
    have hend := hrest.le
    have hf : ∀ {w}, fileReport s toTxNum k f = some w ↔ _ := fileReport_iff hsplit hfit hfiles.1
    have hcut : Set.Ici s ∩ Set.Ico a b =
        (Set.Ici s ∩ Set.Ico f.startTxNum f.endTxNum) ∪ (Set.Ici s ∩ Set.Ico f.endTxNum b) := by
      rw [← Set.inter_union_distrib_left, Set.Ico_union_Ico_eq_Ico hlt.le hend, hstart]
    have hbefore : ∀ m ∈ Set.Ici s ∩ Set.Ico f.startTxNum f.endTxNum,
        ∀ n ∈ Set.Ici s ∩ Set.Ico f.endTxNum b, m < n :=
      fun m hm n hn => hm.2.2.trans_le hn.2.1
    simp only [hcut, isLeast_changesIn_union hbefore]
    rw [findSome?_cons]
    cases hreport : fileReport s toTxNum k f with
    | some w =>
      obtain ⟨m, hm, hmto, hw⟩ := hf.mp hreport
      rw [some.injEq]
      constructor
      · rintro rfl
        exact ⟨m, .inl hm, hmto, hw⟩
      · rintro ⟨n, hn | ⟨hempty, -⟩, -, hv⟩
        · rw [hn.unique hm, hw, some.injEq] at hv
          exact hv
        · exact absurd hm.1 (hempty ▸ Set.notMem_empty m)
    | none =>
      rw [ih hfiles.2 hrest]
      constructor
      · rintro ⟨n, hn, hnto, hv⟩
        refine ⟨n, .inr ⟨?_, hn⟩, hnto, hv⟩
        -- A change in this file would come before, and be in the range.
        by_contra hne
        obtain ⟨m, hm⟩ := exists_isLeast (Set.nonempty_iff_ne_empty.mpr hne)
        obtain ⟨w, hw⟩ := isSome_iff_exists.mp hm.1.2
        have hmn := hbefore m hm.1.1 n hn.1.1
        rw [hf.mpr ⟨m, hm, by omega, hw⟩] at hreport
        cases hreport
      · rintro ⟨n, hn | ⟨-, hn⟩, hnto, hv⟩
        · rw [hf.mpr ⟨n, hn, hnto, hv⟩] at hreport
          cases hreport
        · exact ⟨n, hn, hnto, hv⟩

/-- The files that are left out have nothing to report. -/
theorem findSome?_changedReaders {a b : Nat}
    (hs : 0 ≤ fromTxNum → s = fromTxNum.toNat) {files : List HistoryFile}
    (hfiles : ∀ f ∈ files, f ∈ ht.files)
    (htiles : Tiles (fun f : HistoryFile => f.startTxNum) (fun f => f.endTxNum) a files b) :
    ((changedReaders fromTxNum toTxNum files).findSome? fun r =>
      (withKey Prod.fst k r.2).findSome? fun e =>
        accept s toTxNum (ReconIter.entry r.1 e)) =
      files.findSome? (fileReport s toTxNum k) := by
  induction files generalizing a with
  | nil => rfl
  | cons f files ih =>
    have hfiles' := forall_mem_cons.mp hfiles
    have hnone : ∀ g ∈ f :: files, (∀ n ∈ Set.Ici s ∩ Set.Ico g.startTxNum g.endTxNum,
        ¬(n : Int) < toTxNum) → fileReport s toTxNum k g = none := by
      intro g hg hout
      by_contra hne
      obtain ⟨v, hv⟩ := ne_none_iff_exists'.mp hne
      obtain ⟨n, hn, hnto, -⟩ := (fileReport_iff hsplit hfit (hfiles g hg)).mp hv
      exact hout n hn.1.1 hnto
    rw [changedReaders]
    by_cases hskip : 0 ≤ fromTxNum ∧ f.endTxNum ≤ fromTxNum.toNat
    · rw [if_pos hskip, ih hfiles'.2 htiles.2.2, findSome?_cons, hnone f mem_cons_self]
      rintro n ⟨hsn, -, hn⟩
      have hsn' : s ≤ n := hsn
      have := hs hskip.1
      omega
    · by_cases hstop : 0 ≤ toTxNum ∧ toTxNum.toNat ≤ f.startTxNum
      · rw [if_neg hskip, if_pos hstop, eq_comm, findSome?_nil, findSome?_eq_none_iff]
        intro g hg
        refine hnone g hg fun n hn => ?_
        have hbounds := (htiles.bounds hg).1
        have hstart : f.startTxNum = a := htiles.1
        have hlo : g.startTxNum ≤ n := hn.2.1
        omega
      · rw [if_neg hskip, if_neg hstop, findSome?_cons, findSome?_cons,
          ih hfiles'.2 htiles.2.2, fileReport]

variable (hkeys : ∀ k n, (h k n).isSome → k ≠ []) {limit : Int} (hlimit : limit < 0)

include hkeys hlimit

/-- The cursors over the files yield the first changes from `s` on that come before
the end. -/
theorem yields_advance (hs : 0 ≤ fromTxNum → s = fromTxNum.toNat) :
    ∃ items, Yields next (advance ⟨s, toTxNum,
        .start (changedReaders fromTxNum toTxNum ht.files) limit⟩) items ∧
      items.Pairwise (fun a b => a.1 < b.1) ∧
      ∀ k v, (k, v) ∈ items ↔
        ∃ n, IsLeast (changesIn h (Set.Ici s ∩ Set.Ico 0 E) k) n ∧ n < toTxNum ∧
          h k n = some v := by
  have hreaders : ∀ r ∈ changedReaders fromTxNum toTxNum ht.files,
      r.1 ∈ ht.files ∧ r.2 = r.1.sequences.pairs := by
    intro r hr
    obtain ⟨f, hf, rfl⟩ := mem_map.mp ((changedReaders_sublist _ _ _).subset hr)
    exact ⟨hf, rfl⟩
  have hfollows : ∀ r ∈ changedReaders fromTxNum toTxNum ht.files, ∀ a ∈ r.2,
      ReconIter.Follows (verdict s toTxNum) (accept s toTxNum) (ReconIter.entry r.1 a) := by
    intro r hr a ha
    obtain ⟨hf, hpairs⟩ := hreaders r hr
    refine verdict_follows fun n hn => ?_
    obtain ⟨hin, hsome⟩ := (hsplit.mem_sequences r.1 hf a.1 n).mp ⟨a.2, hpairs ▸ ha, hn⟩
    obtain ⟨v, hv⟩ := isSome_iff_exists.mp hsome
    rw [ReconIter.entry, hsplit.values r.1 hf a.1 n v hin hv]
    rfl
  obtain ⟨items, hyields, hsorted, hmem⟩ := ReconIter.yields_start
    (fun r hr => (hreaders r hr).2 ▸ r.1.sequences.sorted) (endTxNum_ordered hsplit) hfollows
    hlimit
  refine ⟨items, hyields.within (f := mk s toTxNum) fun _ => rfl, hsorted, fun k v => ?_⟩
  · rw [hmem, findSome?_changedReaders hsplit hfit hs (fun f hf => hf) hsplit.tiles,
      findSome?_fileReport hsplit hfit (fun f hf => hf) hsplit.tiles]
    refine ⟨fun hfound => hfound.2.2, fun hfound => ⟨?_, rfl, hfound⟩⟩
    obtain ⟨n, hn, -⟩ := hfound
    exact hkeys k n hn.1.2

/-- The stream over the files is the patch of the changes in them if both bounds are
given; with a negative bound it has nothing. -/
theorem yields_frozen (hint : -2 ^ 63 ≤ fromTxNum ∧ fromTxNum < 2 ^ 63) :
    ∃ items, Yields (nextOrEmpty next) (iterateChangedFrozen ht fromTxNum toTxNum limit) items ∧
      items.Pairwise (fun a b => a.1 < b.1) ∧
      ∀ k v, (k, v) ∈ items ↔ (0 ≤ fromTxNum ∧ 0 ≤ toTxNum) ∧
        ∃ n, IsLeast (changesIn h (txRange fromTxNum toTxNum ∩ Set.Iio E) k) n ∧
          h k n = some v := by
  have hnone : (∀ n ∈ txRange fromTxNum toTxNum, ¬n < E) → ∀ k v : Bytes,
      (k, v) ∈ ([] : List (Bytes × Bytes)) ↔ (0 ≤ fromTxNum ∧ 0 ≤ toTxNum) ∧
        ∃ n, IsLeast (changesIn h (txRange fromTxNum toTxNum ∩ Set.Iio E) k) n ∧
          h k n = some v := by
    intro hout k v
    refine iff_of_false (by simp) ?_
    rintro ⟨-, n, hn, -⟩
    exact hout n hn.1.1.1 hn.1.1.2
  rw [iterateChangedFrozen]
  by_cases hfiles : ht.files = []
  · have hE : 0 = E := by
      have := hsplit.tiles
      rwa [hfiles] at this
    rw [if_pos hfiles]
    exact ⟨[], .done rfl, .nil, hnone fun n _ => by omega⟩
  rw [if_neg hfiles, filesEnd_eq hsplit hfiles]
  by_cases hpast : 0 ≤ fromTxNum ∧ E ≤ fromTxNum.toNat
  · rw [if_pos hpast]
    refine ⟨[], .done rfl, .nil, hnone fun n hn => ?_⟩
    have := (mem_txRange.mp hn).1
    omega
  rw [if_neg hpast]
  have hs : max 0 (toUint64 fromTxNum) =
      if 0 ≤ fromTxNum then fromTxNum.toNat else (fromTxNum + 2 ^ 64).toNat := by
    rw [toUint64]
    split <;> omega
  obtain ⟨items, hyields, hsorted, hmem⟩ := yields_advance hsplit hfit hkeys hlimit
    (fun hfrom => hs.trans (if_pos hfrom))
  refine ⟨items, yields_nextOrEmpty hyields, hsorted, fun k v => ?_⟩
  rw [hmem, hs]
  have hIio : Set.Iio E = Set.Ico 0 E := by
    ext n
    exact (and_iff_right (Nat.zero_le n)).symm
  by_cases hboth : 0 ≤ fromTxNum ∧ 0 ≤ toTxNum
  · rw [if_pos hboth.1, and_iff_right hboth]
    refine exists_congr fun n => ?_
    rw [isLeast_txRange_inter, hIio, and_assoc]
    simp [hboth.2]
  · -- No number reaches what a negative start becomes, and none is below a negative end.
    refine iff_of_false ?_ fun hfound => hboth hfound.1
    rintro ⟨n, hn, hnto, -⟩
    have hfit' := hfit k n hn.1.2
    have hle := hn.1.1.1
    split at hle
    · next hfrom => exact hboth ⟨hfrom, by omega⟩
    · have hle' : (fromTxNum + 2 ^ 64).toNat ≤ n := hle
      omega

end Split

end HistoryChangesIterFiles

/-! ### The union -/

section Union

variable {h : History} {ht : HistoryRoTx} {E : Nat} (hsplit : HistorySplit h ht E)
  {fromTxNum toTxNum : Int}

theorem changesIn_recent (h : History) (E : Nat) (S : Set Nat) (k : Bytes) :
    changesIn (recent h E) S k = changesIn h (S ∩ Set.Ici E) k := by
  ext n
  by_cases hn : E ≤ n
  · simp [changesIn, recent, hn]
  · simp [changesIn, recent, hn]

theorem isSome_of_recent {k : Bytes} {n : Nat} (hsome : (recent h E k n).isSome) :
    (h k n).isSome := by
  rw [recent] at hsome
  split at hsome
  · exact hsome
  · cases hsome

include hsplit in
theorem yields_recent (hapart : KeysApart h) (hfit : TxNumsFit h) (hfrom : fromTxNum < 2 ^ 63)
    (halign : ∀ t, ht.values = .large t →
      HistoryChangesIterDB.Aligned (recent h E) fromTxNum toTxNum)
    {limit : Int} (hlimit : limit < 0) :
    ∃ items, Yields (nextOrEmpty HistoryChangesIterDB.next)
        (iterateChangedRecent ht fromTxNum toTxNum limit) items ∧
      UnwindPatch h (txRange fromTxNum toTxNum ∩ Set.Ici E) items := by
  rw [iterateChangedRecent]
  by_cases hfrozen : 0 ≤ toTxNum ∧ ht.files ≠ [] ∧ toTxNum.toNat ≤ historyFilesEnd ht.files
  · rw [if_pos hfrozen]
    rw [HistoryChangesIterFiles.filesEnd_eq hsplit hfrozen.2.1] at hfrozen
    refine ⟨[], .done rfl, .nil, fun k v => iff_of_false (by simp) ?_⟩
    rintro ⟨n, hn, -⟩
    have hE : E ≤ n := hn.1.1.2
    have := (mem_txRange.mp hn.1.1.1).2 hfrozen.1
    omega
  · rw [if_neg hfrozen]
    obtain ⟨items, hyields, hpatch⟩ := HistoryChangesIterDB.yields_recent hsplit.table
      (fun k l m n hk hl => hapart k l m n (isSome_of_recent hk) (isSome_of_recent hl))
      (fun k n hsome => hfit k n (isSome_of_recent hsome)) hfrom halign hlimit
    refine ⟨items, yields_nextOrEmpty hyields, hpatch.ascending, fun k v => ?_⟩
    rw [hpatch.mem_iff, changesIn_recent]
    refine exists_congr fun n => and_congr_right fun hn => ?_
    rw [recent, if_pos (show E ≤ n from hn.1.1.2)]

/-- Where a key changed in the files, its value before the first change there is
what the table has for it, or the table has nothing and both bounds are given. -/
def SeamAgrees (h : History) (fromTxNum toTxNum : Int) (E : Nat) : Prop :=
  ∀ k n, IsLeast (changesIn h (txRange fromTxNum toTxNum ∩ Set.Iio E) k) n →
    (∃ m, IsLeast (changesIn h (txRange fromTxNum toTxNum ∩ Set.Ici E) k) m ∧ h k m = h k n) ∨
      changesIn h (txRange fromTxNum toTxNum ∩ Set.Ici E) k = ∅ ∧ 0 ≤ fromTxNum ∧ 0 ≤ toTxNum

/-- A range is that of the files, then that of the table. -/
theorem isLeast_seam {k : Bytes} {n : Nat} :
    IsLeast (changesIn h (txRange fromTxNum toTxNum) k) n ↔
      IsLeast (changesIn h (txRange fromTxNum toTxNum ∩ Set.Iio E) k) n ∨
      changesIn h (txRange fromTxNum toTxNum ∩ Set.Iio E) k = ∅ ∧
        IsLeast (changesIn h (txRange fromTxNum toTxNum ∩ Set.Ici E) k) n := by
  have hcut : txRange fromTxNum toTxNum = (txRange fromTxNum toTxNum ∩ Set.Iio E) ∪
      (txRange fromTxNum toTxNum ∩ Set.Ici E) := by
    rw [← Set.inter_union_distrib_left, Set.Iio_union_Ici, Set.inter_univ]
  have hbefore : ∀ m ∈ txRange fromTxNum toTxNum ∩ Set.Iio E,
      ∀ n ∈ txRange fromTxNum toTxNum ∩ Set.Ici E, m < n :=
    fun m hm n hn => hm.2.trans_le hn.2
  rw [← isLeast_changesIn_union hbefore, ← hcut]

/-- The union of the two sides is a patch exactly when they agree at the seam. -/
theorem union_patch_iff {db files : List (Bytes × Bytes)}
    (hdb : UnwindPatch h (txRange fromTxNum toTxNum ∩ Set.Ici E) db)
    (hsorted : files.Pairwise fun a b => a.1 < b.1)
    (hfiles : ∀ k v, (k, v) ∈ files ↔ (0 ≤ fromTxNum ∧ 0 ≤ toTxNum) ∧
      ∃ n, IsLeast (changesIn h (txRange fromTxNum toTxNum ∩ Set.Iio E) k) n ∧
        h k n = some v) :
    UnwindPatch h (txRange fromTxNum toTxNum) (Union.items Prod.fst db files) ↔
      SeamAgrees h fromTxNum toTxNum E := by
  have hmem : ∀ k v, (k, v) ∈ Union.items Prod.fst db files ↔
      (k, v) ∈ db ∨ (k, v) ∈ files ∧ ∀ a ∈ db, a.1 ≠ k := fun k v =>
    Union.mem_items hdb.ascending hsorted
  have hnokey : ∀ k, (∀ a ∈ db, a.1 ≠ k) ↔
      changesIn h (txRange fromTxNum toTxNum ∩ Set.Ici E) k = ∅ := by
    intro k
    rw [← Set.not_nonempty_iff_eq_empty, ← not_iff_not, not_not]
    push Not
    constructor
    · rintro ⟨⟨l, v⟩, hl, rfl⟩
      obtain ⟨n, hn, -⟩ := (hdb.mem_iff l v).mp hl
      exact ⟨n, hn.1⟩
    · intro hne
      obtain ⟨n, hn⟩ := exists_isLeast hne
      obtain ⟨v, hv⟩ := isSome_iff_exists.mp hn.1.2
      exact ⟨(k, v), (hdb.mem_iff k v).mpr ⟨n, hn, hv⟩, rfl⟩
  constructor
  · intro hpatch k n hn
    obtain ⟨v, hv⟩ := isSome_iff_exists.mp hn.1.2
    rcases (hmem k v).mp ((hpatch.mem_iff k v).mpr ⟨n, isLeast_seam.mpr (.inl hn), hv⟩) with
      hin | ⟨hin, hout⟩
    · obtain ⟨m, hm, hmv⟩ := (hdb.mem_iff k v).mp hin
      exact .inl ⟨m, hm, hmv.trans hv.symm⟩
    · exact .inr ⟨(hnokey k).mp hout, ((hfiles k v).mp hin).1⟩
  · intro hseam
    refine ⟨Union.items_sorted hdb.ascending hsorted, fun k v => ?_⟩
    rw [hmem, hdb.mem_iff, hfiles, hnokey]
    constructor
    · rintro (⟨m, hm, hv⟩ | ⟨⟨-, n, hn, hv⟩, -⟩)
      · rcases (changesIn h (txRange fromTxNum toTxNum ∩ Set.Iio E) k).eq_empty_or_nonempty with
          hempty | hne
        · exact ⟨m, isLeast_seam.mpr (.inr ⟨hempty, hm⟩), hv⟩
        · obtain ⟨n, hn⟩ := exists_isLeast hne
          rcases hseam k n hn with ⟨m', hm', heq⟩ | ⟨hempty, -⟩
          · rw [hm'.unique hm, hv] at heq
            exact ⟨n, isLeast_seam.mpr (.inl hn), heq.symm⟩
          · exact absurd hm.1 (hempty ▸ Set.notMem_empty m)
      · exact ⟨n, isLeast_seam.mpr (.inl hn), hv⟩
    · rintro ⟨n, hn, hv⟩
      rcases isLeast_seam.mp hn with hn | ⟨-, hn⟩
      · rcases hseam k n hn with ⟨m, hm, heq⟩ | ⟨hempty, hbounds⟩
        · exact .inl ⟨m, hm, heq.trans hv⟩
        · exact .inr ⟨⟨hbounds, n, hn, hv⟩, hempty⟩
      · exact .inl ⟨n, hn, hv⟩

end Union

/-! ### Two changes -/

/-- The key 1 changes in a file, the key `l` after it. -/
def twoChanges (l : Bytes) : History := fun k n =>
  if k = [1] ∧ n = 1 then some [10] else if k = l ∧ n = 5 then some [20] else none

def twoChangesTx (l : Bytes) : HistoryRoTx where
  files := [⟨⟨0, 4, ⟨[([1], [1])], by decide⟩⟩, [(historyKey 1 [1], [10])]⟩]
  values := .small ⟨[(l, beBytes 8 5 ++ [20])], by simp⟩

theorem twoChanges_isSome {l k : Bytes} {n : Nat} :
    (twoChanges l k n).isSome ↔ k = [1] ∧ n = 1 ∨ k = l ∧ n = 5 := by
  rw [twoChanges]
  split
  · next hfirst => simp [hfirst]
  · next hfirst =>
    split
    · next hsecond => simp [hsecond]
    · next hsecond => simp [hfirst, hsecond]

theorem twoChanges_split (l : Bytes) : HistorySplit (twoChanges l) (twoChangesTx l) 4 := by
  constructor
  · exact ⟨rfl, by decide, rfl⟩
  · simp [twoChangesTx]
  · simp only [twoChangesTx, mem_singleton, forall_eq, twoChanges_isSome, Set.mem_Ico]
    intro k n
    constructor
    · rintro ⟨xs, hxs, hn⟩
      cases hxs
      rw [mem_singleton] at hn
      exact ⟨by omega, .inl ⟨rfl, hn⟩⟩
    · rintro ⟨hn, ⟨rfl, rfl⟩ | ⟨-, rfl⟩⟩
      · exact ⟨[1], rfl, by simp⟩
      · omega
  · simp only [twoChangesTx, mem_singleton, forall_eq, Set.mem_Ico]
    intro k n v hn hv
    have hsome : (twoChanges l k n).isSome := by simp [hv]
    rcases twoChanges_isSome.mp hsome with ⟨rfl, rfl⟩ | ⟨-, rfl⟩
    · simpa [HistoryFile.lookup2, twoChanges] using hv
    · omega
  · intro k d
    have hrecent : ∀ n v, recent (twoChanges l) 4 k n = some v ↔ k = l ∧ n = 5 ∧ v = [20] := by
      intro n v
      by_cases hn : 4 ≤ n
      · have hne : n ≠ 1 := by omega
        simp [recent, twoChanges, hn, hne, eq_comm, and_assoc]
      · have hne : n ≠ 5 := by omega
        simp [recent, hn, hne]
    simp [hrecent, and_assoc]

end Erigon

/-
What `IdxRange` yields.  The streams over the files and over the table both have
the numbers of the range they cover, in the order asked for; the union has all of
them, unless the table is left out although it has a number of the range.
-/
import Erigon.IndexRange

namespace Erigon

open List InvertedIdxStreamFiles

namespace InvertedIdxStreamFiles

/-! ### A stream over files -/

section Scan

variable (skip stop : Nat → Bool)

/-- What the loop lets through. -/
def scanned : List Nat → List Nat
  | [] => []
  | n :: rest => if skip n then scanned rest else if stop n then [] else n :: scanned rest

variable {skip stop}

/-- In an ordered sequence nothing of the range is behind the end. -/
theorem scanned_eq_filter {xs : List Nat}
    (hstop : xs.Pairwise fun m n => stop m = true → stop n = true) :
    scanned skip stop xs = xs.filter fun n => !skip n && !stop n := by
  induction xs with
  | nil => rfl
  | cons n xs ih =>
    rw [pairwise_cons] at hstop
    rw [scanned, ih hstop.2]
    cases hskip : skip n with
    | true => simp [hskip]
    | false =>
      cases hstop' : stop n with
      | false => simp [hskip, hstop']
      | true =>
        have hnil : (xs.filter fun n => !skip n && !stop n) = [] := by
          rw [filter_eq_nil_iff]
          intro m hm
          simp [hstop.1 m hm hstop']
        simp [hskip, hstop', hnil]

end Scan

variable {it : InvertedIdxStreamFiles}

variable (it)

/-- What has to be scanned yet. -/
def unread : List Nat :=
  it.seqIt.getD [] ++ it.stack.flatMap fun f =>
    ((f.sequences.get it.key).map it.sequence).getD []

/-- The sequences of a stack of files. -/
def stacked (stack : List IndexFile) : List Nat :=
  stack.flatMap fun f => ((f.sequences.get it.key).map it.sequence).getD []

theorem scanSeq_spec (xs tail : List Nat) :
    match it.scanSeq xs with
    | .found n rest => scanned it.skips it.stops (xs ++ tail) =
        n :: scanned it.skips it.stops (rest ++ tail)
    | .terminated _ => scanned it.skips it.stops (xs ++ tail) = []
    | .exhausted => scanned it.skips it.stops (xs ++ tail) = scanned it.skips it.stops tail := by
  induction xs with
  | nil => rfl
  | cons n xs ih =>
    rw [scanSeq, cons_append, scanned]
    cases hskip : it.skips n with
    | true => exact ih
    | false =>
      cases hstop : it.stops n with
      | true => rfl
      | false => rfl

/-- The stream after an advance: at its next number, or at its end. -/
def Advanced (it' : InvertedIdxStreamFiles) (xs : List Nat) : Prop :=
  (it'.hasNext = false ∧ scanned it.skips it.stops xs = []) ∨
    ∃ seqIt stack n, it' = { it with seqIt := seqIt, stack := stack, nextN := n, hasNext := true } ∧
      scanned it.skips it.stops xs = n :: scanned it.skips it.stops it'.unread

variable {it}

/-- A sequence is scanned, and then what is left of the stack. -/
theorem scanSeq_advanced {it' : InvertedIdxStreamFiles} (xs : List Nat) {stack : List IndexFile}
    (hrest : Advanced it it' (it.stacked stack)) :
    Advanced it
      (match it.scanSeq xs with
        | .found n rest =>
          { it with seqIt := some rest, stack := stack, nextN := n, hasNext := true }
        | .terminated rest => { it with seqIt := some rest, stack := stack, hasNext := false }
        | .exhausted => it')
      (xs ++ it.stacked stack) := by
  have hspec := scanSeq_spec it xs (it.stacked stack)
  cases hscan : it.scanSeq xs with
  | found n rest =>
    rw [hscan] at hspec
    exact .inr ⟨some rest, stack, n, rfl, hspec⟩
  | terminated rest =>
    rw [hscan] at hspec
    exact .inl ⟨rfl, hspec⟩
  | exhausted =>
    rw [hscan] at hspec
    rw [Advanced, hspec]
    exact hrest

theorem advanceStack_advanced (it : InvertedIdxStreamFiles) (stack : List IndexFile) :
    Advanced it (it.advanceStack stack) (it.stacked stack) := by
  induction stack with
  | nil => exact .inl ⟨rfl, rfl⟩
  | cons item stack ih =>
    rw [advanceStack, stacked, flatMap_cons]
    cases hget : item.sequences.get it.key with
    | none => exact ih
    | some xs => exact scanSeq_advanced (it.sequence xs) ih

theorem advanceInFiles_advanced (it : InvertedIdxStreamFiles) :
    Advanced it it.advanceInFiles it.unread := by
  have hstack := advanceStack_advanced it it.stack
  rw [advanceInFiles, unread]
  cases hseq : it.seqIt with
  | none => exact hstack
  | some xs => exact scanSeq_advanced xs hstack

/-- The numbers a stream yields are those the scan of its files lets through. -/
theorem Advanced.yields {it' : InvertedIdxStreamFiles} {xs : List Nat} (hadv : Advanced it it' xs)
    (hlimit : it.limit < 0) :
    Yields next it' (scanned it.skips it.stops xs) := by
  generalize hout : scanned it.skips it.stops xs = out
  induction out generalizing it it' xs with
  | nil =>
    rcases hadv with ⟨hnext, -⟩ | ⟨seqIt, stack, n, -, hcons⟩
    · exact .done (by simp [next, hnext])
    · rw [hout] at hcons
      cases hcons
  | cons n out ih =>
    rcases hadv with ⟨-, hnil⟩ | ⟨seqIt, stack, m, rfl, hcons⟩
    · rw [hout] at hnil
      cases hnil
    · rw [hout, List.cons.injEq] at hcons
      obtain ⟨rfl, hrest⟩ := hcons
      have hless : it.limit - 1 < 0 := by omega
      refine .step ?_ (ih (advanceInFiles_advanced { it with
        limit := it.limit - 1, seqIt := seqIt, stack := stack, nextN := n, hasNext := true })
        hless hrest.symm)
      simp [next, advance, Int.ne_of_lt hlimit]

theorem yields_advance (hseq : it.seqIt = none) (hnext : it.hasNext = !it.stack.isEmpty)
    (hlimit : it.limit < 0) :
    Yields next it.advance (scanned it.skips it.stops it.unread) := by
  cases hstack : it.stack with
  | nil =>
    rw [hstack] at hnext
    have hunread : it.unread = [] := by simp [unread, hseq, hstack]
    rw [hunread]
    exact .done (by simp [next, advance, hnext])
  | cons f stack =>
    rw [hstack] at hnext
    have hadv : it.advance = it.advanceInFiles := by simp [advance, hnext]
    rw [hadv]
    exact (advanceInFiles_advanced it).yields hlimit

end InvertedIdxStreamFiles

/-! ### The state of an index -/

/-- The order of a stream. -/
def Precedes (asc : Bool) (m n : Nat) : Prop := if asc then m < n else n < m

/-- The range asked for: closed at its start and open at its end. -/
def InRange (startTxNum endTxNum : Int) (asc : Bool) (n : Nat) : Prop :=
  if asc then startTxNum ≤ n ∧ (0 ≤ endTxNum → n < endTxNum)
  else (0 ≤ startTxNum → n ≤ startTxNum) ∧ (0 ≤ endTxNum → endTxNum < n)

/-- The numbers of a key are split between files, which cover those below `bound`,
and the table, which has at least the others. -/
structure SplitAt (numbers : Set Nat) (files : List IndexFile) (table : DupTable Bytes Bytes)
    (key : Bytes) (bound : Nat) : Prop where
  tiles : Tiles IndexFile.startTxNum IndexFile.endTxNum 0 files bound
  mem_file : ∀ f ∈ files, ∀ n, n ∈ (f.sequences.get key).getD [] ↔
    n ∈ numbers ∧ f.startTxNum ≤ n ∧ n < f.endTxNum
  file_sorted : ∀ f ∈ files, ((f.sequences.get key).getD []).Pairwise (· < ·)
  table_numbers : ∀ v ∈ table.dups key, ∃ n ∈ numbers, v = beBytes 8 n
  mem_table : ∀ n ∈ numbers, bound ≤ n → beBytes 8 n ∈ table.dups key
  numbers_lt : ∀ n ∈ numbers, n < 2 ^ 63
  bound_lt : bound < 2 ^ 63

theorem precedes_iff_unionKey {asc : Bool} {m n : Nat} :
    Precedes asc m n ↔ unionKey asc m < unionKey asc n := by
  cases asc with
  | true => simp [Precedes, unionKey]
  | false => simp [Precedes, unionKey]

theorem unionKey_inj {asc : Bool} {m n : Nat} (heq : unionKey asc m = unionKey asc n) : m = n := by
  cases asc with
  | true => simpa [unionKey] using heq
  | false => simpa [unionKey] using heq

/-! ### The files -/

namespace InvertedIdxStreamFiles

variable {n : Nat} (it : InvertedIdxStreamFiles)

theorem inRange_iff (hn : n < 2 ^ 63) :
    (!it.skips n && !it.stops n) = true ↔
      InRange it.startTxNum it.endTxNum it.orderAscend n := by
  rw [skips, stops, InRange, toInt_eq hn, Bool.and_eq_true, Bool.not_eq_true', Bool.not_eq_true']
  cases it.orderAscend with
  | true =>
    simp only [if_true, decide_eq_false_iff_not]
    omega
  | false =>
    simp only [Bool.false_eq_true, if_false, decide_eq_false_iff_not]
    omega

theorem stops_of_precedes {m : Nat} (hm : m < 2 ^ 63)
    (hn : n < 2 ^ 63) (hmn : Precedes it.orderAscend m n) (hstop : it.stops m = true) :
    it.stops n = true := by
  rw [stops, toInt_eq hn]
  rw [stops, toInt_eq hm] at hstop
  rw [Precedes] at hmn
  cases hasc : it.orderAscend with
  | true =>
    simp only [hasc, if_true, decide_eq_true_iff] at hstop hmn ⊢
    omega
  | false =>
    simp only [hasc, Bool.false_eq_true, if_false, decide_eq_true_iff] at hstop hmn ⊢
    omega

variable {xs : List Nat}

theorem mem_dropWhile_iff {p : Nat → Bool} (hn : ¬p n = true) : n ∈ xs.dropWhile p ↔ n ∈ xs := by
  refine ⟨fun hmem => (dropWhile_sublist p).subset hmem, fun hmem => ?_⟩
  rw [← xs.takeWhile_append_dropWhile (p := p), mem_append] at hmem
  exact hmem.resolve_left fun htake => hn (mem_takeWhile_imp htake)

section

variable (it : InvertedIdxStreamFiles)

theorem sequence_sublist (xs : List Nat) :
    (it.sequence xs).Sublist (if it.orderAscend then xs else xs.reverse) := by
  rw [sequence]
  cases it.orderAscend with
  | true =>
    simp only [if_true, seqIterator]
    split
    · exact dropWhile_sublist _
    · exact List.Sublist.refl _
  | false =>
    simp only [Bool.false_eq_true, if_false, seqReverseIterator]
    split
    · exact dropWhile_sublist _
    · exact List.Sublist.refl _

theorem sequence_precedes (hxs : xs.Pairwise (· < ·)) :
    (it.sequence xs).Pairwise (Precedes it.orderAscend) := by
  refine List.Pairwise.sublist (it.sequence_sublist xs) ?_
  cases it.orderAscend with
  | true => exact hxs
  | false => exact pairwise_reverse.mpr hxs

theorem mem_of_mem_sequence (hn : n ∈ it.sequence xs) : n ∈ xs := by
  have hmem := (it.sequence_sublist xs).subset hn
  split at hmem
  · exact hmem
  · exact mem_reverse.mp hmem

/-- What an iterator leaves out would be skipped. -/
theorem mem_sequence (hn : n < 2 ^ 63) (hskip : it.skips n = false) :
    n ∈ it.sequence xs ↔ n ∈ xs := by
  rw [skips, toInt_eq hn] at hskip
  rw [sequence]
  cases hasc : it.orderAscend with
  | true =>
    simp only [hasc, if_true, decide_eq_false_iff_not] at hskip ⊢
    rw [seqIterator]
    split
    · refine mem_dropWhile_iff fun hlt => ?_
      rw [decide_eq_true_iff] at hlt
      omega
    · exact Iff.rfl
  | false =>
    simp only [hasc, Bool.false_eq_true, if_false, decide_eq_false_iff_not] at hskip ⊢
    have hreverse : n ∈ xs ↔ n ∈ xs.reverse := mem_reverse.symm
    rw [seqReverseIterator, hreverse]
    split
    · refine mem_dropWhile_iff fun hlt => ?_
      rw [decide_eq_true_iff] at hlt
      omega
    · exact Iff.rfl

theorem getD_map_sequence (found : Option (List Nat)) :
    (found.map it.sequence).getD [] = it.sequence (found.getD []) := by
  cases found with
  | none => simp [sequence, seqIterator, seqReverseIterator]
  | some xs => rfl

end

end InvertedIdxStreamFiles

theorem pushFiles_eq {skip stop : IndexFile → Bool} {files : List IndexFile}
    (hstop : files.Pairwise fun f g => stop f = true → stop g = true) (stack : List IndexFile) :
    pushFiles skip stop files stack =
      (files.filter fun f => !skip f && !stop f && f.sequences.pairs ≠ []).reverse ++ stack := by
  induction files generalizing stack with
  | nil => rfl
  | cons f files ih =>
    rw [pairwise_cons] at hstop
    rw [pushFiles]
    cases hskip : skip f with
    | true => simp [hskip, ih hstop.2]
    | false =>
      cases hstop' : stop f with
      | true =>
        have hrest : ∀ g ∈ files, stop g = true := fun g hg => hstop.1 g hg hstop'
        simp +contextual [hskip, hstop', hrest]
      | false =>
        by_cases hempty : f.sequences.pairs = []
        · simp [hskip, hstop', hempty, ih hstop.2]
        · simp [hskip, hstop', hempty, ih hstop.2]

section Split

open CursorDup2iter (reached inside initial mem_along along_ordered yields_initial)

variable {numbers : Set Nat} {files : List IndexFile} {table : DupTable Bytes Bytes}
  {key : Bytes} {bound : Nat} (hsplit : SplitAt numbers files table key bound)
  {startTxNum endTxNum : Int} {asc : Bool} (hstart : startTxNum < 2 ^ 63)
  (hend : endTxNum < 2 ^ 63) {n : Nat} {limit b : Int}

/-- The files in the order of the stream. -/
def filesAlong (files : List IndexFile) (asc : Bool) : List IndexFile :=
  if asc then files else files.reverse

theorem mem_filesAlong {f : IndexFile} : f ∈ filesAlong files asc ↔ f ∈ files := by
  rw [filesAlong]
  split
  · exact Iff.rfl
  · exact mem_reverse

/-! ### The bounds of a query -/

theorem nextSubtree_beBytes (hn : n < 2 ^ 63) : nextSubtree (beBytes 8 n) ≠ none := by
  intro hnone
  obtain ⟨k, hk⟩ := nextSubtree_none hnone
  have hlength := congrArg List.length hk
  rw [beBytes_length, length_replicate] at hlength
  subst hlength
  have hmax := congrArg beNat hk
  rw [beNat_beBytes, Nat.mod_eq_of_lt (by omega)] at hmax
  have : beNat (List.replicate 8 255) = 2 ^ 64 - 1 := by decide
  omega

theorem reached_iff (hb : b < 2 ^ 63) (hn : n < 2 ^ 63) :
    reached (boundBytes b) asc (beBytes 8 n) = true ↔
      (0 ≤ b → if asc then b ≤ n else n ≤ b) := by
  by_cases hpos : 0 ≤ b
  · rw [boundBytes, if_pos hpos, reached]
    cases asc with
    | true =>
      simp only [if_true, decide_eq_true_iff]
      rw [beBytes_le_iff (by omega) (by omega)]
      omega
    | false =>
      simp only [Bool.false_eq_true, if_false, decide_eq_true_iff]
      rw [beBytes_le_iff (by omega) (by omega)]
      omega
  · rw [boundBytes, if_neg hpos]
    exact ⟨fun _ h => absurd h hpos, fun _ => rfl⟩

theorem inside_iff (hb : b < 2 ^ 63) (hn : n < 2 ^ 63) :
    inside (boundBytes b) asc (beBytes 8 n) = true ↔
      (0 ≤ b → if asc then n < b else b < n) := by
  by_cases hpos : 0 ≤ b
  · have hnot : inside (boundBytes b) asc (beBytes 8 n) =
        !reached (boundBytes b) asc (beBytes 8 n) := by
      rw [boundBytes, if_pos hpos, inside, reached]
      cases asc <;> simp [← decide_not]
    rw [hnot, Bool.not_eq_true', ← Bool.not_eq_true, reached_iff hb hn]
    split <;> omega
  · rw [boundBytes, if_neg hpos]
    exact ⟨fun _ h => absurd h hpos, fun _ => rfl⟩

theorem yields_idxUnion {x : InvertedIdxStreamFiles} {y : Option CursorDup2iter} {xs ys : List Nat}
    (hx : Yields next x xs) (hy : Yields recentNext y ys)
    (hlimit : limit < 0) (hxs : xs.Pairwise (Precedes asc)) (hys : ys.Pairwise (Precedes asc)) :
    ∃ zs, Yields IdxStream.next (idxUnion asc limit x y) zs ∧ zs.Pairwise (Precedes asc) ∧
      ∀ n, n ∈ zs ↔ n ∈ xs ∨ n ∈ ys := by
  rw [idxUnion]
  cases hxnext : x.next with
  | none =>
    obtain rfl := hx.eq_nil hxnext
    exact ⟨ys, hy.within (f := IdxStream.recent) fun _ => rfl, hys, by simp⟩
  | some r =>
    cases hynext : recentNext y with
    | none =>
      obtain rfl := hy.eq_nil hynext
      exact ⟨xs, hx.within (f := IdxStream.files) fun _ => rfl, hxs, by simp⟩
    | some q =>
      have hkey : ∀ {l : List Nat}, l.Pairwise (Precedes asc) →
          l.Pairwise fun m n => unionKey asc m < unionKey asc n :=
        fun hl => hl.imp precedes_iff_unionKey.mp
      have hunion : Yields (Union.next next recentNext (unionKey asc)) _ _ :=
        Union.yields_start hx hy hlimit
      refine ⟨_, hunion.within (f := IdxStream.union asc) fun _ => rfl,
        (Union.items_sorted (hkey hxs) (hkey hys)).imp precedes_iff_unionKey.mpr,
        fun n => ?_⟩
      rw [Union.mem_items (hkey hxs) (hkey hys)]
      constructor
      · rintro (hn | ⟨hn, -⟩)
        · exact .inl hn
        · exact .inr hn
      · intro hn
        by_cases hmem : n ∈ xs
        · exact .inl hmem
        · refine .inr ⟨hn.resolve_left hmem, fun m hm heq => hmem ?_⟩
          rwa [← unionKey_inj heq]

theorem ite_error_eq_ok {E A : Type} {p q : Prop} [Decidable p] (hpq : q ↔ ¬p) {e : E} {a b : A} :
    (if p then .error e else .ok a : Except E A) = .ok b ↔ q ∧ b = a := by
  rw [hpq]
  split
  · exact ⟨fun h => (nomatch h), fun h => absurd ‹_› h.1⟩
  · exact ⟨fun h => ⟨‹_›, (Except.ok.inj h).symm⟩, fun h => congrArg _ h.2.symm⟩

theorem iterateRangeOnFiles_eq_ok {x : InvertedIdxStreamFiles} :
    iterateRangeOnFiles files key startTxNum endTxNum asc limit = .ok x ↔
      (0 ≤ startTxNum → 0 ≤ endTxNum →
        if asc then startTxNum ≤ endTxNum else endTxNum ≤ startTxNum) ∧
      ∃ stack, stack = (if asc then ascendingStack files startTxNum endTxNum
          else descendingStack files startTxNum endTxNum) ∧
        x = advance ⟨key, startTxNum, endTxNum, asc, limit, none, stack, 0, !stack.isEmpty⟩ := by
  rw [iterateRangeOnFiles]
  cases asc with
  | true =>
    simp only [true_and, if_true, reduceCtorEq, false_and, if_false, exists_eq_left]
    exact ite_error_eq_ok (by omega)
  | false =>
    simp only [true_and, Bool.false_eq_true, false_and, if_false, exists_eq_left]
    exact ite_error_eq_ok (by omega)

theorem idxRange_eq_ok {stream : IdxStream} :
    idxRange files table key startTxNum endTxNum asc limit = .ok stream ↔
    ∃ x y, iterateRangeOnFiles files key startTxNum endTxNum asc limit = .ok x ∧
      recentIterateRange files table key startTxNum endTxNum asc limit = .ok y ∧
      idxUnion asc limit x y = stream := by
  rw [idxRange]
  cases iterateRangeOnFiles files key startTxNum endTxNum asc limit with
  | error err => simp [bind, Except.bind]
  | ok x => cases recentIterateRange files table key startTxNum endTxNum asc limit <;>
      simp [bind, Except.bind]

section

include hstart hend

/-- The bounds in bytes are those of the range. -/
theorem inRange_bytes_iff (hn : n < 2 ^ 63) :
    (reached (boundBytes startTxNum) asc (beBytes 8 n) &&
      inside (boundBytes endTxNum) asc (beBytes 8 n)) = true ↔
        InRange startTxNum endTxNum asc n := by
  rw [Bool.and_eq_true, reached_iff hstart hn, inside_iff hend hn, InRange]
  cases asc with
  | true =>
    simp only [if_true]
    omega
  | false => simp

theorem recentIterateRange_eq_ok
    (hfrozen : isFrozenRange files startTxNum endTxNum asc = false) {y : Option CursorDup2iter} :
    recentIterateRange files table key startTxNum endTxNum asc limit = .ok y ↔
      (0 ≤ startTxNum → 0 ≤ endTxNum →
        if asc then startTxNum < endTxNum else endTxNum < startTxNum) ∧
      y = some ⟨table.dups key, boundBytes endTxNum, asc, limit,
        initial (table.dups key) (boundBytes startTxNum) asc⟩ := by
  rw [recentIterateRange, hfrozen, if_neg Bool.false_ne_true]
  by_cases hs : 0 ≤ startTxNum
  · by_cases he : 0 ≤ endTxNum
    · have hle : ∀ {a b : Int}, 0 ≤ a → a < 2 ^ 63 → 0 ≤ b → b < 2 ^ 63 →
          (beBytes 8 a.toNat ≤ beBytes 8 b.toNat ↔ a ≤ b) := by
        intro a b ha ha' hb hb'
        rw [beBytes_le_iff (by omega) (by omega)]
        omega
      have hfrom : boundBytes startTxNum = some (beBytes 8 startTxNum.toNat) := if_pos hs
      have hto : boundBytes endTxNum = some (beBytes 8 endTxNum.toNat) := if_pos he
      rw [hfrom, hto]
      cases asc with
      | true =>
        simp only [CursorDup2iter.init, hle he hend hs hstart, hs, he, true_imp_iff, if_true]
        rw [apply_ite (Except.map some)]
        exact ite_error_eq_ok not_le.symm
      | false =>
        simp only [CursorDup2iter.init, hle hs hstart he hend, hs, he, true_imp_iff,
          Bool.false_eq_true, if_false]
        rw [apply_ite (Except.map some)]
        exact ite_error_eq_ok not_le.symm
    · have hto : boundBytes endTxNum = none := if_neg he
      rw [hto]
      cases boundBytes startTxNum <;> simp [CursorDup2iter.init, Except.map, he, eq_comm]
  · have hfrom : boundBytes startTxNum = none := if_neg hs
    rw [hfrom]
    simp [CursorDup2iter.init, Except.map, hs, eq_comm]

/-- Bounds in the wrong order are refused, and equal ones unless the table is left out. -/
theorem idxRange_ok_iff :
    (∃ stream, idxRange files table key startTxNum endTxNum asc limit = .ok stream) ↔
      (0 ≤ startTxNum → 0 ≤ endTxNum →
        (if asc then startTxNum < endTxNum else endTxNum < startTxNum) ∨
          startTxNum = endTxNum ∧ isFrozenRange files startTxNum endTxNum asc = true) := by
  constructor
  · rintro ⟨stream, hok⟩ hs he
    obtain ⟨x, y, hx, hy, -⟩ := idxRange_eq_ok.mp hok
    have hfiles := (iterateRangeOnFiles_eq_ok.mp hx).1 hs he
    cases hfrozen : isFrozenRange files startTxNum endTxNum asc with
    | true =>
      simp only [and_true]
      split at hfiles
      · rw [if_pos ‹_›]
        omega
      · rw [if_neg ‹_›]
        omega
    | false => exact .inl (((recentIterateRange_eq_ok hstart hend hfrozen).mp hy).1 hs he)
  · intro h
    have hfiles (hs : 0 ≤ startTxNum) (he : 0 ≤ endTxNum) :
        if asc then startTxNum ≤ endTxNum else endTxNum ≤ startTxNum := by
      have hor := h hs he
      split
      · rw [if_pos ‹_›] at hor
        omega
      · rw [if_neg ‹_›] at hor
        omega
    obtain ⟨y, hy⟩ : ∃ y, recentIterateRange files table key startTxNum endTxNum asc limit =
        .ok y := by
      cases hfrozen : isFrozenRange files startTxNum endTxNum asc with
      | true => exact ⟨none, by rw [recentIterateRange, if_pos hfrozen]⟩
      | false =>
        refine ⟨_, (recentIterateRange_eq_ok hstart hend hfrozen).mpr ⟨fun hs he => ?_, rfl⟩⟩
        exact (h hs he).resolve_right fun hequal => by simp [hfrozen] at hequal
    exact ⟨_, idxRange_eq_ok.mpr
      ⟨_, y, iterateRangeOnFiles_eq_ok.mpr ⟨hfiles, _, rfl, rfl⟩, hy, rfl⟩⟩

end

/-! ### The files of a split -/

include hsplit

theorem SplitAt.filesAlong_ordered (asc : Bool) : (filesAlong files asc).Pairwise fun f g =>
    if asc then f.endTxNum ≤ g.startTxNum else g.endTxNum ≤ f.startTxNum := by
  cases asc with
  | true => exact hsplit.tiles.pairwise
  | false => exact pairwise_reverse.mpr hsplit.tiles.pairwise

theorem SplitAt.pairs_ne {f : IndexFile} (hf : f ∈ files) (hn : n ∈ numbers)
    (hlow : f.startTxNum ≤ n) (hhigh : n < f.endTxNum) : f.sequences.pairs ≠ [] := by
  intro hempty
  have hmem := (hsplit.mem_file f hf n).mpr ⟨hn, hlow, hhigh⟩
  rw [SortedPairs.get, hempty] at hmem
  cases hmem

/-- The files that are read are files, in the order of the stream, and all with a number of the
range are among them. -/
theorem SplitAt.stack_spec {stack : List IndexFile}
    (hstack : stack = if asc then ascendingStack files startTxNum endTxNum
      else descendingStack files startTxNum endTxNum) :
    stack.Sublist (filesAlong files asc) ∧
      ∀ f ∈ files, ∀ n ∈ numbers, f.startTxNum ≤ n → n < f.endTxNum →
        InRange startTxNum endTxNum asc n → f ∈ stack := by
  cases asc with
  | true =>
    have hstop : files.reverse.Pairwise fun f g =>
        decide (0 ≤ startTxNum ∧ f.endTxNum ≤ startTxNum.toNat) = true →
        decide (0 ≤ startTxNum ∧ g.endTxNum ≤ startTxNum.toNat) = true := by
      rw [pairwise_reverse]
      refine hsplit.tiles.pairwise.imp_of_mem fun {g f} hg hf hle => ?_
      have := hsplit.tiles.bounds hf
      simp only [decide_eq_true_iff]
      omega
    rw [hstack, if_pos rfl, ascendingStack, pushFiles_eq hstop, append_nil]
    refine ⟨by simp [filesAlong], fun f hf n hn hlow hhigh hrange => ?_⟩
    obtain ⟨hge, hlt⟩ : startTxNum ≤ n ∧ (0 ≤ endTxNum → n < endTxNum) := hrange
    have hbounds := hsplit.tiles.bounds hf
    have hbound := hsplit.bound_lt
    have hne := hsplit.pairs_ne hf hn hlow hhigh
    refine mem_reverse.mpr (mem_filter.mpr ⟨mem_reverse.mpr hf, ?_⟩)
    simp only [Bool.and_eq_true, Bool.not_eq_true', decide_eq_false_iff_not, decide_eq_true_iff]
    rw [toInt_eq (by omega)]
    exact ⟨by omega, hne⟩
  | false =>
    have hstop : files.Pairwise fun f g =>
        decide (0 ≤ startTxNum ∧ startTxNum.toNat < f.startTxNum) = true →
        decide (0 ≤ startTxNum ∧ startTxNum.toNat < g.startTxNum) = true := by
      refine hsplit.tiles.pairwise.imp_of_mem fun {f g} hf hg hle => ?_
      have := hsplit.tiles.bounds hf
      simp only [decide_eq_true_iff]
      omega
    rw [hstack, if_neg Bool.false_ne_true, descendingStack, pushFiles_eq hstop, append_nil]
    refine ⟨filter_sublist.reverse, fun f hf n hn hlow hhigh hrange => ?_⟩
    obtain ⟨hle, hgt⟩ : (0 ≤ startTxNum → n ≤ startTxNum) ∧ (0 ≤ endTxNum → endTxNum < n) := hrange
    have hbounds := hsplit.tiles.bounds hf
    have hbound := hsplit.bound_lt
    have hne := hsplit.pairs_ne hf hn hlow hhigh
    refine mem_reverse.mpr (mem_filter.mpr ⟨hf, ?_⟩)
    simp only [Bool.and_eq_true, Bool.not_eq_true', decide_eq_false_iff_not, decide_eq_true_iff]
    rw [toInt_eq (by omega)]
    exact ⟨by omega, hne⟩

/-- The stream over the files has the numbers below `bound`. -/
theorem SplitAt.files_yield (hlimit : limit < 0) {stack : List IndexFile}
    (hstack : stack = if asc then ascendingStack files startTxNum endTxNum
      else descendingStack files startTxNum endTxNum) :
    ∃ xs, Yields next
        (advance
          ⟨key, startTxNum, endTxNum, asc, limit, none, stack, 0, !stack.isEmpty⟩) xs ∧
      xs.Pairwise (Precedes asc) ∧
      ∀ n, n ∈ xs ↔ n ∈ numbers ∧ n < bound ∧ InRange startTxNum endTxNum asc n := by
  obtain ⟨hsub, hread⟩ := hsplit.stack_spec hstack
  obtain ⟨it, hit⟩ : ∃ it : InvertedIdxStreamFiles, it =
      ⟨key, startTxNum, endTxNum, asc, limit, none, stack, 0, !stack.isEmpty⟩ := ⟨_, rfl⟩
  have hasc : it.orderAscend = asc := by rw [hit]
  have hunread : it.unread = stack.flatMap fun f =>
      it.sequence ((f.sequences.get key).getD []) := by
    simp only [← getD_map_sequence]
    rw [unread, hit]
    rfl
  have hfiles : ∀ f ∈ stack, f ∈ files := fun f hf => mem_filesAlong.mp (hsub.subset hf)
  have hof : ∀ f ∈ stack, ∀ n ∈ it.sequence ((f.sequences.get key).getD []),
      n ∈ numbers ∧ f.startTxNum ≤ n ∧ n < f.endTxNum := fun f hf n hn =>
    (hsplit.mem_file f (hfiles f hf) n).mp (it.mem_of_mem_sequence hn)
  have hlt : ∀ n ∈ it.unread, n < 2 ^ 63 := by
    intro n hn
    rw [hunread, mem_flatMap] at hn
    obtain ⟨f, hf, hn⟩ := hn
    exact hsplit.numbers_lt n (hof f hf n hn).1
  have hordered : it.unread.Pairwise (Precedes asc) := by
    rw [hunread, pairwise_flatMap]
    constructor
    · intro f hf
      exact hasc ▸ it.sequence_precedes (hsplit.file_sorted f (hfiles f hf))
    · refine ((hsplit.filesAlong_ordered asc).sublist hsub).imp_of_mem ?_
      intro f g hf hg hfg m hm n hn
      have hm' := hof f hf m hm
      have hn' := hof g hg n hn
      rw [Precedes]
      split at hfg
      · rw [if_pos ‹_›]
        omega
      · rw [if_neg ‹_›]
        omega
  have hscan : scanned it.skips it.stops it.unread =
      it.unread.filter fun n => !it.skips n && !it.stops n := by
    refine scanned_eq_filter (hordered.imp_of_mem ?_)
    intro m n hm hn hmn hstop
    exact it.stops_of_precedes (hlt m hm) (hlt n hn) (hasc ▸ hmn) hstop
  refine ⟨it.unread.filter fun n => !it.skips n && !it.stops n, ?_, hordered.filter _,
    fun n => ?_⟩
  · rw [← hscan, ← hit]
    exact it.yields_advance (by rw [hit]) (by rw [hit]) (by rw [hit]; exact hlimit)
  · have hrange : n < 2 ^ 63 → ((!it.skips n && !it.stops n) = true ↔
        InRange startTxNum endTxNum asc n) := by
      intro hn
      rw [it.inRange_iff hn, hit]
    rw [mem_filter, hunread, mem_flatMap]
    constructor
    · rintro ⟨⟨f, hf, hn⟩, hkept⟩
      obtain ⟨hmem, -, hhigh⟩ := hof f hf n hn
      have hend := (hsplit.tiles.bounds (hfiles f hf)).2.2
      exact ⟨hmem, hhigh.trans_le hend, (hrange (hsplit.numbers_lt n hmem)).mp hkept⟩
    · rintro ⟨hmem, hbound, hin⟩
      obtain ⟨f, hf, hlow, hhigh⟩ := hsplit.tiles.exists_mem (Nat.zero_le n) hbound
      have hkept := (hrange (hsplit.numbers_lt n hmem)).mpr hin
      refine ⟨⟨f, hread f hf n hmem hlow hhigh hin, ?_⟩, hkept⟩
      have hn := (hsplit.mem_file f hf n).mpr ⟨hmem, hlow, hhigh⟩
      rw [Bool.and_eq_true, Bool.not_eq_true'] at hkept
      exact (it.mem_sequence (hsplit.numbers_lt n hmem) hkept.1).mpr hn

theorem SplitAt.filesEnd_eq (hne : files ≠ []) : filesEnd files = bound := by
  rw [filesEnd, getLast?_eq_some_getLast hne]
  exact hsplit.tiles.hi_getLast (getLast?_eq_some_getLast hne)

/-- Only a descending range that starts where the files end can lose a number. -/
theorem SplitAt.frozen_lt_iff :
    (∀ n ∈ numbers, InRange startTxNum endTxNum asc n →
        isFrozenRange files startTxNum endTxNum asc = true → n < bound) ↔
      ¬(asc = false ∧ files ≠ [] ∧ startTxNum = bound ∧ bound ∈ numbers ∧
        endTxNum < bound) := by
  rw [isFrozenRange]
  constructor
  · rintro h ⟨rfl, hne, hbound, hmem, hlt⟩
    refine absurd (h bound hmem ⟨fun _ => hbound.ge, fun _ => hlt⟩ ?_) (Nat.lt_irrefl bound)
    simp only [Bool.false_eq_true, if_false, decide_eq_true_iff, hsplit.filesEnd_eq hne]
    exact ⟨hne, by omega, by omega⟩
  · intro hnot n hn hin hfrozen
    cases asc with
    | true =>
      simp only [if_true, decide_eq_true_iff] at hfrozen
      obtain ⟨hne, hpos, hle⟩ := hfrozen
      rw [hsplit.filesEnd_eq hne] at hle
      have hlt : (n : Int) < endTxNum := hin.2 hpos
      omega
    | false =>
      simp only [Bool.false_eq_true, if_false, decide_eq_true_iff] at hfrozen
      obtain ⟨hne, hpos, hle⟩ := hfrozen
      rw [hsplit.filesEnd_eq hne] at hle
      have hns : (n : Int) ≤ startTxNum := hin.1 hpos
      rcases Nat.lt_or_ge n bound with hlt | hge
      · exact hlt
      · -- Then the number is the start of the range and the end of the files.
        obtain rfl : n = bound := by omega
        have hend : endTxNum < n := by
          by_cases he : 0 ≤ endTxNum
          · exact hin.2 he
          · omega
        exact absurd ⟨rfl, hne, by omega, hn, hend⟩ hnot

/-! ### The table -/

theorem SplitAt.dups_numbers {v : Bytes} (hv : v ∈ table.dups key) :
    beNat v ∈ numbers ∧ v = beBytes 8 (beNat v) := by
  obtain ⟨n, hn, rfl⟩ := hsplit.table_numbers v hv
  have := hsplit.numbers_lt n hn
  rw [beNat_beBytes, Nat.mod_eq_of_lt (by omega)]
  exact ⟨hn, rfl⟩

include hstart hend

/-- The stream over the table has its numbers in the range. -/
theorem SplitAt.table_yields (hlimit : limit < 0) :
    ∃ ys, Yields recentNext (some ⟨table.dups key, boundBytes endTxNum, asc, limit,
        initial (table.dups key) (boundBytes startTxNum) asc⟩) ys ∧
      ys.Pairwise (Precedes asc) ∧
      ∀ n, n ∈ ys ↔ beBytes 8 n ∈ table.dups key ∧ n ∈ numbers ∧
        InRange startTxNum endTxNum asc n := by
  have hdups := table.dups_sorted key
  have hfrom : asc = false → ∀ b ∈ boundBytes startTxNum, nextSubtree b ≠ none ∧
      ∀ d ∈ table.dups key, d.length = b.length := by
    intro _ b hb
    rw [boundBytes] at hb
    split at hb
    · cases hb
      refine ⟨nextSubtree_beBytes (by omega), fun d hd => ?_⟩
      rw [(hsplit.dups_numbers hd).2, beBytes_length, beBytes_length]
    · cases hb
  have hyields := yields_initial hdups (boundBytes endTxNum) hfrom hlimit
  have hrecent : ∀ s, recentNext (some s) = (CursorDup2iter.next s).map
      fun r => (beNat r.1, some r.2) := fun _ => rfl
  refine ⟨_, hyields.wrap hrecent, ?_, fun n => ?_⟩
  · rw [pairwise_map]
    refine ((along_ordered hdups asc).filter _).imp_of_mem ?_
    intro v w hv hw hvw
    have hv' := hsplit.dups_numbers (mem_along.mp (mem_filter.mp hv).1)
    have hw' := hsplit.dups_numbers (mem_along.mp (mem_filter.mp hw).1)
    have hvlt := hsplit.numbers_lt _ hv'.1
    have hwlt := hsplit.numbers_lt _ hw'.1
    rw [CursorDup2iter.Follows, hv'.2, hw'.2, beBytes_lt_iff (by omega) (by omega),
      beBytes_lt_iff (by omega) (by omega)] at hvw
    exact hvw
  · simp only [mem_map, mem_filter, mem_along]
    constructor
    · rintro ⟨v, ⟨hv, hin⟩, rfl⟩
      obtain ⟨hmem, hbytes⟩ := hsplit.dups_numbers hv
      rw [hbytes, inRange_bytes_iff hstart hend (hsplit.numbers_lt _ hmem)] at hin
      exact ⟨hbytes ▸ hv, hmem, hin⟩
    · rintro ⟨hv, hmem, hin⟩
      have hlt := hsplit.numbers_lt n hmem
      refine ⟨beBytes 8 n, ⟨hv, (inRange_bytes_iff hstart hend hlt).mpr hin⟩, ?_⟩
      rw [beNat_beBytes, Nat.mod_eq_of_lt (by omega)]

/-- A stream has all numbers of the range, but only those of the files when the
range is taken to lie in them. -/
theorem SplitAt.idxRange_yields (hlimit : limit < 0) {stream : IdxStream}
    (hok : idxRange files table key startTxNum endTxNum asc limit = .ok stream) :
    ∃ zs, Yields IdxStream.next stream zs ∧ zs.Pairwise (Precedes asc) ∧
      ∀ n, n ∈ zs ↔ n ∈ numbers ∧ InRange startTxNum endTxNum asc n ∧
        (isFrozenRange files startTxNum endTxNum asc = true → n < bound) := by
  obtain ⟨x, y, hx, hy, rfl⟩ := idxRange_eq_ok.mp hok
  obtain ⟨xs, hxs, hxsorted, hxmem⟩ : ∃ xs, Yields next x xs ∧
      xs.Pairwise (Precedes asc) ∧
      ∀ n, n ∈ xs ↔ n ∈ numbers ∧ n < bound ∧ InRange startTxNum endTxNum asc n := by
    obtain ⟨-, stack, hstack, rfl⟩ := iterateRangeOnFiles_eq_ok.mp hx
    exact hsplit.files_yield hlimit hstack
  cases hfrozen : isFrozenRange files startTxNum endTxNum asc with
  | true =>
    rw [recentIterateRange, hfrozen, if_pos rfl] at hy
    cases hy
    have hempty : Yields recentNext none [] := .done rfl
    obtain ⟨zs, hzs, hsorted, hmem⟩ := yields_idxUnion hxs hempty hlimit hxsorted .nil
    refine ⟨zs, hzs, hsorted, fun n => ?_⟩
    rw [hmem, hxmem]
    simp only [not_mem_nil, or_false]
    tauto
  | false =>
    obtain ⟨-, rfl⟩ := (recentIterateRange_eq_ok hstart hend hfrozen).mp hy
    obtain ⟨ys, hys, hysorted, hymem⟩ := hsplit.table_yields hstart hend hlimit
    obtain ⟨zs, hzs, hsorted, hmem⟩ := yields_idxUnion hxs hys hlimit hxsorted hysorted
    refine ⟨zs, hzs, hsorted, fun n => ?_⟩
    rw [hmem, hxmem, hymem]
    constructor
    · rintro (⟨hn, -, hin⟩ | ⟨-, hn, hin⟩)
      · exact ⟨hn, hin, fun h => absurd h Bool.false_ne_true⟩
      · exact ⟨hn, hin, fun h => absurd h Bool.false_ne_true⟩
    · rintro ⟨hn, hin, -⟩
      rcases Nat.lt_or_ge n bound with hlt | hge
      · exact .inl ⟨hn, hlt, hin⟩
      · exact .inr ⟨hsplit.mem_table n hn hge, hn, hin⟩

/-- A range query answers with exactly the numbers of the range unless its bounds
are refused or the table is left out although it has the first number. -/
theorem idxRange_exact_iff {limit : Int} (hlimit : limit < 0) :
    (∃ stream xs, idxRange files table key startTxNum endTxNum asc limit = .ok stream ∧
        Yields IdxStream.next stream xs ∧ xs.Pairwise (Precedes asc) ∧
        ∀ n, n ∈ xs ↔ n ∈ numbers ∧ InRange startTxNum endTxNum asc n) ↔
      (0 ≤ startTxNum → 0 ≤ endTxNum →
        (if asc then startTxNum < endTxNum else endTxNum < startTxNum) ∨
          startTxNum = endTxNum ∧ isFrozenRange files startTxNum endTxNum asc = true) ∧
      ¬(asc = false ∧ files ≠ [] ∧ startTxNum = bound ∧ bound ∈ numbers ∧
        endTxNum < bound) := by
  rw [← hsplit.frozen_lt_iff, ← idxRange_ok_iff hstart hend]
  constructor
  · rintro ⟨stream, xs, hok, hxs, -, hmem⟩
    refine ⟨⟨stream, hok⟩, fun n hn hin => ?_⟩
    obtain ⟨zs, hzs, -, hmem'⟩ := hsplit.idxRange_yields hstart hend hlimit hok
    obtain rfl := hxs.unique hzs
    exact ((hmem' n).mp ((hmem n).mpr ⟨hn, hin⟩)).2.2
  · rintro ⟨⟨stream, hok⟩, hlt⟩
    obtain ⟨zs, hzs, hsorted, hmem⟩ := hsplit.idxRange_yields hstart hend hlimit hok
    refine ⟨stream, zs, hok, hzs, hsorted, fun n => ?_⟩
    rw [hmem]
    exact ⟨fun h => ⟨h.1, h.2.1⟩, fun h => ⟨h.1, h.2, hlt n h.1 h.2⟩⟩

end Split

/-! ### An index of three numbers -/

/-- A file with two numbers of the key 1. -/
def fileWithKey : IndexFile := ⟨0, 8, ⟨[([1], [3, 7])], by decide⟩⟩

def fileWithoutKey : IndexFile := ⟨8, 16, ⟨[([2], [9])], by decide⟩⟩

def twoFiles : List IndexFile := [fileWithKey, fileWithoutKey]

/-- The number 16 of the key is in the table only. -/
def recentTable : DupTable Bytes Bytes :=
  ⟨[([1], beBytes 8 7), ([1], beBytes 8 16)], by decide⟩

theorem splitAt_sixteen : SplitAt {3, 7, 16} twoFiles recentTable [1] 16 := by
  have hdups : recentTable.dups [1] = [beBytes 8 7, beBytes 8 16] := by decide
  refine ⟨by simp [Tiles, twoFiles, fileWithKey, fileWithoutKey], fun f hf n => ?_, by decide, fun v hv => ?_,
    fun n hn hge => ?_, fun n hn => ?_, by decide⟩
  · simp only [twoFiles, mem_cons, not_mem_nil, or_false] at hf
    rcases hf with rfl | rfl
    · have hget : fileWithKey.sequences.get [1] = some [3, 7] := by decide
      rw [hget]
      simp only [Option.getD_some, mem_cons, not_mem_nil, or_false,
        Set.mem_insert_iff, Set.mem_singleton_iff, fileWithKey]
      omega
    · have hget : fileWithoutKey.sequences.get [1] = none := by decide
      rw [hget]
      simp only [Option.getD_none, not_mem_nil, Set.mem_insert_iff,
        Set.mem_singleton_iff, fileWithoutKey, false_iff]
      omega
  · rw [hdups] at hv
    simp only [mem_cons, not_mem_nil, or_false] at hv
    rcases hv with rfl | rfl
    · exact ⟨7, by simp, rfl⟩
    · exact ⟨16, by simp, rfl⟩
  · rw [hdups]
    simp only [Set.mem_insert_iff, Set.mem_singleton_iff] at hn
    obtain rfl : n = 16 := by omega
    simp
  · simp only [Set.mem_insert_iff, Set.mem_singleton_iff] at hn
    omega

theorem idxRange_exact_ascending :
    ∃ stream xs, idxRange twoFiles recentTable [1] 3 (-1) true (-1) = .ok stream ∧
      Yields IdxStream.next stream xs ∧ xs.Pairwise (Precedes true) ∧
      ∀ n, n ∈ xs ↔ n ∈ ({3, 7, 16} : Set Nat) ∧ InRange 3 (-1) true n :=
  (idxRange_exact_iff splitAt_sixteen (by decide) (by decide) (by decide)).mpr
    ⟨by decide, by simp⟩

/-- The descending range from 16 on misses 16. -/
theorem idxRange_descending_misses :
    SplitAt {3, 7, 16} twoFiles recentTable [1] 16 ∧
      ∃ stream, idxRange twoFiles recentTable [1] 16 (-1) false (-1) = .ok stream ∧
        Yields IdxStream.next stream [7, 3] ∧ InRange 16 (-1) false 16 := by
  refine ⟨splitAt_sixteen, _, rfl, ?_, by simp [InRange]⟩
  exact .step rfl (.step rfl (.done rfl))

end Erigon

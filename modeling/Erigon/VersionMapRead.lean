/-
The calls of the version map and what is read after any of them.  A read looks for the last write
before its transaction; that there is none is told by the index -1, which is also the index of
the transaction at the beginning of a block.
-/
import Erigon.VersionedExecution

namespace Erigon

namespace IntraBlock

/-! ### The calls -/

/-- `VersionMap.s`: the cells of a location, once there have been any. -/
abbrev Cells := Location → Option (SortedPairs Int WriteCell)

namespace Cells

def new : Cells := fun _ => none

variable (s : Cells) (loc : Location)

def set (cells : SortedPairs Int WriteCell) : Cells :=
  fun l => if l = loc then some cells else s l

def write (v : Version) (data : Option Val) (complete : Bool) :
    Result Cells :=
  let cells := (s loc).getD .empty
  let flag : CellFlag := if complete then .done else .estimate
  match cells.get v.txIndex with
  | some ci =>
    if v.incarnation < ci.incarnation then
      .panic "existing transaction value does not have lower incarnation"
    else .ok (s.set loc (cells.insert v.txIndex ⟨flag, v.incarnation, data⟩))
  | none => .ok (s.set loc (cells.insert v.txIndex ⟨flag, v.incarnation, data⟩))

def mark (flag : CellFlag) (loc : Location) (txIdx : Int) : Result Cells :=
  match s loc with
  | none => .panic "path must already exist"
  | some cells =>
    match cells.get txIdx with
    | none => .panic "should not happen - cell should be present for path"
    | some ci => .ok (s.set loc (cells.insert txIdx { ci with flag := flag }))

variable (txIdx : Int)

def markEstimate : Result Cells :=
  s.mark .estimate loc txIdx

def markComplete : Result Cells :=
  s.mark .done loc txIdx

def delete (checkExists : Bool) : Result Cells :=
  match s loc with
  | none => if checkExists then .panic "path must already exist" else .ok s
  | some cells => .ok (s.set loc (cells.erase txIdx))

def deleteAll (addr : Address) (txIdx : Int) : Cells :=
  fun loc => if loc.1 = addr then (s loc).map (·.erase txIdx) else s loc

/-- `VersionMap.Read`. -/
def read : ReadResult :=
  match s loc with
  | none => ⟨-1, -1, none⟩
  | some cells =>
    match cells.floor (txIdx - 1) with
    | some (fk, fv) =>
      if fk ≠ -1 then
        match fv.flag with
        | .estimate => ⟨fk, -1, fv.data⟩
        | .done => ⟨fk, fv.incarnation, fv.data⟩
      else ⟨-1, -1, none⟩
    | none => ⟨-1, -1, none⟩

/-- The map as executions see it. -/
def versions : VersionMap := fun loc => (s loc).getD .empty

theorem read_eq :
    s.read loc txIdx = s.versions.read txIdx loc := by
  rw [read, VersionMap.read, versions]
  cases s loc <;> rfl

/-- The cell of a transaction at a location. -/
def cell : Option WriteCell :=
  (s.versions loc).get txIdx

end Cells

inductive MapCall where
  | write (loc : Location) (v : Version) (data : Option Val) (complete : Bool)
  | delete (loc : Location) (txIdx : Int) (checkExists : Bool)
  | deleteAll (addr : Address) (txIdx : Int)
  | markEstimate (loc : Location) (txIdx : Int)
  | markComplete (loc : Location) (txIdx : Int)

def Cells.call (s : Cells) : MapCall → Result Cells
  | .write loc v data complete => s.write loc v data complete
  | .delete loc txIdx checkExists => s.delete loc txIdx checkExists
  | .deleteAll addr txIdx => .ok (s.deleteAll addr txIdx)
  | .markEstimate loc txIdx => s.markEstimate loc txIdx
  | .markComplete loc txIdx => s.markComplete loc txIdx

/-- A call that panics has changed nothing. -/
def Cells.settle (s : Cells) : Result Cells → Cells
  | .ok s' => s'
  | _ => s

def Cells.after (s : Cells) (call : MapCall) : Cells := s.settle (s.call call)

variable (calls : List MapCall)

def Cells.run : Cells := calls.foldl Cells.after Cells.new

/-! ### What the calls leave, cell by cell -/

/-- What a call does to one cell, if it does not panic. -/
def MapCall.effect (call : MapCall) (loc : Location) (txIdx : Int) (old : Option WriteCell) :
    Option WriteCell :=
  match call with
  | .write l v data complete =>
    if loc = l ∧ txIdx = v.txIndex then
      if ∃ ci ∈ old, v.incarnation < ci.incarnation then old
      else some ⟨if complete then .done else .estimate, v.incarnation, data⟩
    else old
  | .delete l i _ => if loc = l ∧ txIdx = i then none else old
  | .deleteAll addr i => if loc.1 = addr ∧ txIdx = i then none else old
  | .markEstimate l i =>
    if loc = l ∧ txIdx = i then old.map fun ci => { ci with flag := .estimate } else old
  | .markComplete l i =>
    if loc = l ∧ txIdx = i then old.map fun ci => { ci with flag := .done } else old

/-- The cell of a transaction at a location, followed through the calls. -/
def entryAfter (loc : Location) (txIdx : Int) : Option WriteCell :=
  calls.foldl (fun old call => call.effect loc txIdx old) none

namespace Cells

variable (s : Cells)

theorem cell_set (loc l : Location) (cells : SortedPairs Int WriteCell) (i : Int) :
    (s.set loc cells).cell l i = if l = loc then cells.get i else s.cell l i := by
  rw [cell, cell, versions, versions, set]
  split <;> rfl

variable {loc : Location}

theorem cell_of_none (hcells : s loc = none) (i : Int) : s.cell loc i = none := by
  rw [cell, versions, hcells]
  rfl

variable {cells : SortedPairs Int WriteCell}

theorem cell_of_some (hcells : s loc = some cells) (i : Int) : s.cell loc i = cells.get i := by
  rw [cell, versions, hcells]
  rfl

/-- Putting a cell changes this cell only. -/
theorem cell_set_insert (hcells : ∀ i, s.cell loc i = cells.get i) (l : Location) (j i : Int)
    (entry : WriteCell) :
    (s.set loc (cells.insert j entry)).cell l i =
      if l = loc ∧ i = j then some entry else s.cell l i := by
  rw [cell_set, SortedPairs.get_insert]
  by_cases hl : l = loc
  · by_cases hi : i = j
    · simp [hl, hi]
    · simp [hl, hi, hcells]
  · simp [hl]

theorem cell_after_write (loc l : Location) (v : Version) (data : Option Val) (complete : Bool)
    (i : Int) :
    (s.after (.write loc v data complete)).cell l i =
      (MapCall.write loc v data complete).effect l i (s.cell l i) := by
  have hcells : ∀ i, s.cell loc i = ((s loc).getD .empty).get i := fun _ => rfl
  have hset := s.cell_set_insert hcells l v.txIndex i
  rw [after, call, write, ← hcells, MapCall.effect]
  by_cases hat : l = loc ∧ i = v.txIndex
  · rw [if_pos hat, hat.1, hat.2]
    cases hold : s.cell loc v.txIndex with
    | none => simp [settle, cell_set_insert _ hcells]
    | some ci =>
      by_cases hlt : v.incarnation < ci.incarnation
      · simp [settle, hlt, hold]
      · simp [settle, hlt, cell_set_insert _ hcells]
  · rw [if_neg hat]
    cases hold : s.cell loc v.txIndex with
    | none => simp [settle, hset, hat]
    | some ci =>
      by_cases hlt : v.incarnation < ci.incarnation
      · simp [settle, hlt]
      · simp [settle, hlt, hset, hat]

theorem cell_settle_mark (flag : CellFlag) (loc l : Location) (j i : Int) :
    (s.settle (s.mark flag loc j)).cell l i =
      if l = loc ∧ i = j then (s.cell l i).map fun ci => { ci with flag := flag }
      else s.cell l i := by
  -- where there is no cell, the call panics and there is nothing to mark
  have hnone : s.cell loc j = none → s.cell l i =
      if l = loc ∧ i = j then (s.cell l i).map fun ci => { ci with flag := flag }
      else s.cell l i := by
    intro hcell
    split
    · rename_i hat
      rw [hat.1, hat.2, hcell]
      rfl
    · rfl
  rw [mark]
  cases hcells : s loc with
  | none => exact hnone (s.cell_of_none hcells j)
  | some cells =>
    have hget := s.cell_of_some hcells
    cases hold : cells.get j with
    | none =>
      simp only [hold]
      exact hnone ((hget j).trans hold)
    | some ci =>
      simp only [hold, settle]
      rw [s.cell_set_insert hget]
      split
      · rename_i hat
        rw [hat.1, hat.2, hget, hold]
        rfl
      · rfl

theorem cell_after (call : MapCall) (loc : Location) (i : Int) :
    (s.after call).cell loc i = call.effect loc i (s.cell loc i) := by
  cases call with
  | write l v data complete => exact s.cell_after_write l loc v data complete i
  | markEstimate l j => exact s.cell_settle_mark .estimate l loc j i
  | markComplete l j => exact s.cell_settle_mark .done l loc j i
  | delete l j checkExists =>
    rw [after, Cells.call, delete, MapCall.effect]
    cases hcells : s l with
    | none =>
      have hsame : s.cell loc i = if loc = l ∧ i = j then none else s.cell loc i := by
        split
        · rename_i hat
          rw [hat.1, s.cell_of_none hcells]
        · rfl
      rw [← hsame]
      cases checkExists <;> rfl
    | some cells =>
      simp only [settle, cell_set, SortedPairs.get_erase]
      by_cases hl : loc = l
      · simp [hl, s.cell_of_some hcells]
      · simp [hl]
  | deleteAll addr j =>
    rw [after, Cells.call, MapCall.effect]
    simp only [settle, cell, versions, deleteAll]
    by_cases haddr : loc.1 = addr
    · cases hcells : s loc with
      | none => simp [haddr, SortedPairs.get_empty]
      | some cells => simp [haddr, SortedPairs.get_erase]
    · simp [haddr]

end Cells

theorem cell_run (loc : Location) (i : Int) :
    (Cells.run calls).cell loc i = entryAfter calls loc i := by
  have hstep (s : Cells) (call : MapCall) :
      call.effect loc i (s.cell loc i) = (s.after call).cell loc i := (s.cell_after call loc i).symm
  exact (List.foldl_hom (fun s : Cells => s.cell loc i) hstep).symm

/-! ### Reads -/

/-- The entry of the greatest index below `i`. -/
def LastBefore (entries : Int → Option WriteCell) (i j : Int) (entry : WriteCell) : Prop :=
  entries j = some entry ∧ j < i ∧ ∀ k, (entries k).isSome → k < i → k ≤ j

/-- What a read should return. -/
structure ReadsLast (entries : Int → Option WriteCell) (i : Int) (res : ReadResult) : Prop where
  none_iff : res.status = .none ↔ ∀ k, (entries k).isSome → ¬k < i
  done : ∀ j entry, LastBefore entries i j entry → entry.flag = .done →
    res.status = .done ∧ res.depIdx = j ∧ res.incarnation = entry.incarnation ∧
      res.value = entry.data
  dependency : ∀ j entry, LastBefore entries i j entry → entry.flag = .estimate →
    res.status = .dependency ∧ res.depIdx = j

/-- The last entry before a transaction is not that of the transaction at the beginning of the
block, nor one without an incarnation. -/
def Told (entries : Int → Option WriteCell) (i : Int) : Prop :=
  ∀ j entry, LastBefore entries i j entry →
    j ≠ -1 ∧ (entry.flag = .done → entry.incarnation ≠ -1)

theorem LastBefore.unique {entries : Int → Option WriteCell} {i j k : Int} {e f : WriteCell}
    (he : LastBefore entries i j e) (hf : LastBefore entries i k f) : j = k ∧ e = f := by
  have hjk : j = k :=
    le_antisymm (hf.2.2 j (by rw [he.1]; rfl) he.2.1) (he.2.2 k (by rw [hf.1]; rfl) hf.2.1)
  subst hjk
  exact ⟨rfl, Option.some.inj (he.1.symm.trans hf.1)⟩

variable {cells : SortedPairs Int WriteCell}

theorem lastBefore_floor {i fk : Int} {fv : WriteCell}
    (hfloor : cells.floor (i - 1) = some (fk, fv)) : LastBefore cells.get i fk fv := by
  obtain ⟨hmem, hle, hgreatest⟩ := cells.floor_eq_some.mp hfloor
  refine ⟨cells.get_eq_some.mpr hmem, by omega, fun k hk hki => ?_⟩
  obtain ⟨entry, hentry⟩ := Option.isSome_iff_exists.mp hk
  exact hgreatest (k, entry) (cells.get_eq_some.mp hentry) (Int.le_sub_one_of_lt hki)

theorem not_lt_of_floor_none {i : Int} (hfloor : cells.floor (i - 1) = none) :
    ∀ k, (cells.get k).isSome → ¬k < i := by
  intro k hk hki
  obtain ⟨entry, hentry⟩ := Option.isSome_iff_exists.mp hk
  have hlt := cells.floor_eq_none.mp hfloor (k, entry) (cells.get_eq_some.mp hentry)
  exact absurd hlt (not_lt.mpr (Int.le_sub_one_of_lt hki))

/-- What reading a last entry gives is right exactly if it can be told. -/
theorem readsLast_of_lastBefore {entries : Int → Option WriteCell} {i fk : Int} {fv : WriteCell}
    (hlast : LastBefore entries i fk fv) {res : ReadResult}
    (hres : res = if fk ≠ -1 then
        match fv.flag with
        | .estimate => ⟨fk, -1, fv.data⟩
        | .done => ⟨fk, fv.incarnation, fv.data⟩
      else ⟨-1, -1, none⟩) :
    ReadsLast entries i res ↔ fk ≠ -1 ∧ (fv.flag = .done → fv.incarnation ≠ -1) := by
  have hpresent : ¬∀ k, (entries k).isSome → ¬k < i := fun h =>
    h fk (by rw [hlast.1]; rfl) hlast.2.1
  constructor
  · intro hreads
    have hfk : fk ≠ -1 := by
      intro heq
      rw [heq, if_neg (by simp)] at hres
      exact hpresent (hreads.none_iff.mp (by rw [hres]; rfl))
    refine ⟨hfk, fun hflag hinc => ?_⟩
    have hdone := (hreads.done fk fv hlast hflag).1
    rw [hres, if_pos hfk, hflag] at hdone
    simp [ReadResult.status, hfk, hinc] at hdone
  · rintro ⟨hfk, hinc⟩
    rw [if_pos hfk] at hres
    refine ⟨iff_of_false (fun hnone => ?_) hpresent, fun j e hj hflag => ?_, fun j e hj hflag => ?_⟩
    · rw [hres] at hnone
      cases hflag : fv.flag with
      | done => simp [hflag, ReadResult.status, hfk, hinc hflag] at hnone
      | estimate => simp [hflag, ReadResult.status, hfk] at hnone
    · obtain ⟨rfl, rfl⟩ := hj.unique hlast
      simp [hres, hflag, ReadResult.status, hfk, hinc hflag]
    · obtain ⟨rfl, rfl⟩ := hj.unique hlast
      simp [hres, hflag, ReadResult.status, hfk]

/-- A read returns the last entry before its transaction exactly if this is not an entry of the
transaction at the beginning of the block (nor, complete, one of incarnation -1). -/
theorem readsLast_iff_told (calls : List MapCall) (loc : Location) (i : Int) :
    ReadsLast (entryAfter calls loc) i ((Cells.run calls).read loc i) ↔
      Told (entryAfter calls loc) i := by
  have hentries : entryAfter calls loc = ((Cells.run calls).versions loc).get :=
    funext fun k => (cell_run calls loc k).symm
  rw [hentries, Cells.read_eq, VersionMap.read]
  generalize (Cells.run calls).versions loc = cells
  cases hfloor : cells.floor (i - 1) with
  | none =>
    have hnone := not_lt_of_floor_none hfloor
    have hno : ∀ j entry, ¬LastBefore cells.get i j entry := fun j entry h =>
      hnone j (by rw [h.1]; rfl) h.2.1
    refine iff_of_true ⟨iff_of_true rfl hnone, ?_, ?_⟩ fun j entry h => absurd h (hno j entry)
    · exact fun j entry h => absurd h (hno j entry)
    · exact fun j entry h => absurd h (hno j entry)
  | some a =>
    obtain ⟨fk, fv⟩ := a
    have hlast := lastBefore_floor hfloor
    refine (readsLast_of_lastBefore hlast rfl).trans ⟨?_, fun h => h fk fv hlast⟩
    intro h j entry hj
    obtain ⟨rfl, rfl⟩ := hj.unique hlast
    exact h

/-! ### Interleavings -/

/-- The transaction that a call is made for. -/
def MapCall.txIndex : MapCall → Int
  | .write _ v _ _ => v.txIndex
  | .delete _ i _ | .deleteAll _ i | .markEstimate _ i | .markComplete _ i => i

theorem MapCall.effect_of_ne (call : MapCall) (loc : Location) {k : Int} (hk : call.txIndex ≠ k)
    (old : Option WriteCell) : call.effect loc k old = old := by
  cases call <;> exact if_neg fun hat => hk hat.2.symm

/-- Only the calls for a transaction change its cells. -/
theorem entryAfter_filter (calls : List MapCall) (loc : Location) (k : Int) :
    entryAfter (calls.filter fun call => call.txIndex = k) loc k = entryAfter calls loc k := by
  rw [entryAfter, entryAfter, List.foldl_filter]
  refine List.foldl_ext _ _ _ fun old call _ => ?_
  split
  · rfl
  · rename_i hother
    exact (call.effect_of_ne loc (by simpa using hother) old).symm

/-- A transaction runs in the same way whatever the interleaving of the calls for the transactions
before it, and whatever is called for the others. -/
theorem execute_interleaved (reader : StateReader) {calls calls' : List MapCall} (txIndex : Nat)
    (h : ∀ k < (txIndex : Int), calls.filter (fun call => call.txIndex = k) =
      calls'.filter fun call => call.txIndex = k) (incarnation : Int) (program : Program) :
    execute reader (Cells.run calls).versions txIndex incarnation program =
      execute reader (Cells.run calls').versions txIndex incarnation program := by
  have hread : (Cells.run calls).versions.read txIndex =
      (Cells.run calls').versions.read txIndex := by
    funext loc
    rw [VersionMap.read, VersionMap.read, SortedPairs.floor_congr fun k hk => ?_]
    have hcell := cell_run calls loc k
    rw [← entryAfter_filter, h k (Int.lt_of_le_sub_one hk), entryAfter_filter, ← cell_run] at hcell
    exact hcell
  rw [execute, hread, execute]

/-- Two writes in either order, and a call for a later transaction. -/
theorem execute_interleaved_swap :
    let first := MapCall.write (7, .balance) ⟨0, 0⟩ (some (.uint256 5)) true
    let second := MapCall.write (8, .balance) ⟨1, 0⟩ (some (.uint256 6)) true
    execute noAccounts (Cells.run [first, second]).versions 2 0 asksExistence =
      execute noAccounts (Cells.run [second, .deleteAll 7 3, first]).versions 2 0 asksExistence := by
  refine execute_interleaved noAccounts 2 (fun k hk => ?_) 0 asksExistence
  have hlater : ¬(3 : Int) = k := by omega
  by_cases hzero : (0 : Int) = k
  · simp [MapCall.txIndex, ← hzero]
  · simp [List.filter_cons, MapCall.txIndex, hzero, hlater]

/-- The write of the transaction at the beginning of the block is not seen by the first one. -/
theorem not_readsLast_begin :
    ¬ReadsLast (entryAfter [.write (7, .balance) ⟨-1, 0⟩ (some (.uint256 5)) true] (7, .balance)) 0
      ((Cells.run [.write (7, .balance) ⟨-1, 0⟩ (some (.uint256 5)) true]).read (7, .balance) 0) := by
  intro hreads
  have hnone : ((Cells.run [.write (7, .balance) ⟨-1, 0⟩ (some (.uint256 5)) true]).read
      (7, .balance) 0).status = .none := by decide
  exact hreads.none_iff.mp hnone (-1) (by decide) (by decide)

end IntraBlock

end Erigon

/-
Dependencies between the transactions of a block (`GetDep`, `UpdateDeps`).  A transaction depends
on an earlier one that writes what it reads; of these edges, those are left out that lead to what
a later found predecessor already depends on.  Leaving them out does not change what depends on
what in the end.
-/
import Erigon.IntraBlockState

namespace Erigon

open List Relation

/-! ### Pruned predecessors

Edges lead from a number to smaller ones.  The predecessors of a number are found in ascending
order; with each, its own predecessors are taken away from those found before. -/

section Pruning

variable (edge : Nat → Nat → Prop) [DecidableRel edge] (rows : Nat → Finset Nat)

/-- The predecessors of `i` that are left when those below `m` have been looked at. -/
def prunedRow (i : Nat) : Nat → Finset Nat
  | 0 => ∅
  | m + 1 =>
    if edge i m then (insert m (prunedRow i m)).filter (· ∉ rows m) else prunedRow i m

variable {edge rows}

theorem prunedRow_congr {rows' : Nat → Finset Nat} {i m : Nat} (h : ∀ j < m, rows j = rows' j) :
    prunedRow edge rows i m = prunedRow edge rows' i m := by
  induction m with
  | zero => rfl
  | succ m ih =>
    rw [prunedRow, prunedRow, ih fun j hj => h j (Nat.lt_succ_of_lt hj), h m (Nat.lt_succ_self m)]

theorem lt_and_edge_of_mem_prunedRow {i m j : Nat} (hj : j ∈ prunedRow edge rows i m) :
    j < m ∧ edge i j := by
  induction m with
  | zero => simp [prunedRow] at hj
  | succ m ih =>
    have hold : j ∈ prunedRow edge rows i m → j < m + 1 ∧ edge i j := fun h =>
      ⟨Nat.lt_succ_of_lt (ih h).1, (ih h).2⟩
    rw [prunedRow] at hj
    split at hj
    · rename_i hedge
      rcases Finset.mem_insert.mp (Finset.mem_filter.mp hj).1 with rfl | hj
      · exact ⟨Nat.lt_succ_self j, hedge⟩
      · exact hold hj
    · exact hold hj

/-- A predecessor that is not left is reached from one that is. -/
theorem reached_of_edge (hrows : ∀ m, ∀ j ∈ rows m, j < m) {i m j : Nat} (hj : j < m)
    (hedge : edge i j) :
    ∃ k ∈ prunedRow edge rows i m, ReflTransGen (fun a b => b ∈ rows a) k j := by
  induction m with
  | zero => cases hj
  | succ m ih =>
    rw [prunedRow]
    split
    · rename_i hm
      have hself : m ∈ (insert m (prunedRow edge rows i m)).filter (· ∉ rows m) :=
        Finset.mem_filter.mpr ⟨Finset.mem_insert_self .., fun h => (hrows m m h).false⟩
      rcases Nat.lt_succ_iff_lt_or_eq.mp hj with hlt | rfl
      · obtain ⟨k, hk, hpath⟩ := ih hlt
        by_cases hkm : k ∈ rows m
        · exact ⟨m, hself, .head hkm hpath⟩
        · exact ⟨k, Finset.mem_filter.mpr ⟨Finset.mem_insert_of_mem hk, hkm⟩, hpath⟩
      · exact ⟨j, hself, .refl⟩
    · rename_i hm
      rcases Nat.lt_succ_iff_lt_or_eq.mp hj with hlt | rfl
      · exact ih hlt
      · exact absurd hedge hm

/-- Pruning loses no connection. -/
theorem transGen_prunedRow (hrows : ∀ i, rows i = prunedRow edge rows i i) (i j : Nat) :
    TransGen (fun a b => b ∈ rows a) i j ↔ TransGen (fun a b => b < a ∧ edge a b) i j := by
  have hlt : ∀ m, ∀ j ∈ rows m, j < m := by
    intro m j hj
    rw [hrows] at hj
    exact (lt_and_edge_of_mem_prunedRow hj).1
  constructor
  · have hstep : ∀ {a b}, b ∈ rows a → b < a ∧ edge a b := by
      intro a b hab
      rw [hrows] at hab
      exact lt_and_edge_of_mem_prunedRow hab
    intro hpath
    induction hpath with
    | single hab => exact .single (hstep hab)
    | tail _ hab ih => exact ih.tail (hstep hab)
  · have hstep : ∀ {a b}, b < a ∧ edge a b → TransGen (fun a b => b ∈ rows a) a b := by
      rintro a b ⟨hba, hedge⟩
      obtain ⟨k, hk, hpath⟩ := reached_of_edge hlt hba hedge
      rw [← hrows] at hk
      exact TransGen.head' hk hpath
    intro hpath
    induction hpath with
    | single hab => exact hstep hab
    | tail _ hab ih => exact ih.trans (hstep hab)

end Pruning

namespace IntraBlock

/-! ### The model -/

/-- The locations of a `ReadSet`. -/
abbrev ReadLocations := Finset Location

/-- The locations of `VersionedWrites`, in order. -/
abbrev WriteLocations := List Location

/-- The read sets and full write sets of a `VersionedIO`; the first of each is that of the
transaction at the beginning of the block. -/
structure VersionedIO where
  inputs : List ReadLocations
  allOutputs : List WriteLocations

def hasReadDep (txFrom : WriteLocations) (txTo : ReadLocations) : Bool :=
  txFrom.any fun rd => decide (rd ∈ txTo)

/-- `map[int]map[int]bool`. -/
abbrev Deps := Nat → Option (Finset Nat)

namespace Deps

variable (deps : Deps)

def row (i : Nat) : Finset Nat := (deps i).getD ∅

def set (i : Nat) (row : Finset Nat) : Deps :=
  fun k => if k = i then some row else deps k

/-- `i` depends on `j`. -/
def Rel (i j : Nat) : Prop := j ∈ deps.row i

theorem row_set (i k : Nat) (row : Finset Nat) :
    (deps.set i row).row k = if k = i then row else deps.row k := by
  rw [Deps.row, set]
  split <;> rfl

end Deps

def depsHelper (deps : Deps) (txFrom : WriteLocations) (txTo : ReadLocations) (i j : Nat) : Deps :=
  if hasReadDep txFrom txTo then
    deps.set i ((insert j (deps.row i)).filter fun k => k ∉ deps.row j)
  else deps

/-- The loop over the earlier transactions. -/
def depsLoop (writes : List WriteLocations) (txTo : ReadLocations) (i : Nat) :
    List Nat → Deps → Result Deps
  | [], deps => .ok deps
  | j :: js, deps =>
    match writes[j]? with
    | some txFrom => depsLoop writes txTo i js (depsHelper deps txFrom txTo i j)
    | none => .panic "index out of range"

structure TxDep where
  index : Nat
  reads : ReadLocations
  fullWriteList : List WriteLocations

def updateDeps (deps : Deps) (t : TxDep) : Result Deps :=
  depsLoop t.fullWriteList t.reads t.index (List.range t.index) (deps.set t.index ∅)

/-- The loop of `GetDep`, over indices with the read sets. -/
def getDepLoop (writes : List WriteLocations) : List (ReadLocations × Nat) → Deps → Result Deps
  | [], deps => .ok deps
  | (txTo, i) :: rest, deps => do
    let deps ← depsLoop writes txTo i (List.range i) (deps.set i ∅)
    getDepLoop writes rest deps

def getDep (io : VersionedIO) : Result Deps :=
  getDepLoop io.allOutputs (io.inputs.zipIdx.drop 1) fun _ => none

/-- `UpdateDeps` for one transaction after the other. -/
def updateAll : List TxDep → Deps → Result Deps
  | [], deps => .ok deps
  | t :: rest, deps => do
    let deps ← updateDeps deps t
    updateAll rest deps

/-! ### What the calls compute -/

/-- `i` reads a write of `j`. -/
def VersionedIO.Edge (io : VersionedIO) (i j : Nat) : Prop :=
  i < io.inputs.length ∧ hasReadDep (io.allOutputs.getD j []) (io.inputs.getD i ∅) = true

instance (io : VersionedIO) : DecidableRel io.Edge :=
  fun i j => inferInstanceAs (Decidable (i < io.inputs.length ∧
    hasReadDep (io.allOutputs.getD j []) (io.inputs.getD i ∅) = true))

/-- The argument of `UpdateDeps` for transaction `i`: its reads, and the writes of at least the
transactions before it. -/
structure Feeds (io : VersionedIO) (i : Nat) (t : TxDep) : Prop where
  index : t.index = i
  reads : io.inputs[i]? = some t.reads
  writes : ∀ j < i, ∃ txFrom, io.allOutputs[j]? = some txFrom ∧ t.fullWriteList[j]? = some txFrom

theorem depsLoop_append (writes : List WriteLocations) (txTo : ReadLocations) (i : Nat)
    (front back : List Nat) (deps : Deps) :
    depsLoop writes txTo i (front ++ back) deps =
      depsLoop writes txTo i front deps >>= depsLoop writes txTo i back := by
  induction front generalizing deps with
  | nil => rfl
  | cons j front ih =>
    rw [cons_append, depsLoop, depsLoop]
    cases writes[j]? with
    | none => rfl
    | some txFrom => exact ih _

theorem Deps.set_set (deps : Deps) (i : Nat) (a b : Finset Nat) :
    (deps.set i a).set i b = deps.set i b := by
  funext k
  rw [set, set, set]
  split <;> rfl

variable {deps : Deps} {i n : Nat}

theorem depsHelper_eq (io : VersionedIO) {txFrom : WriteLocations} {txTo : ReadLocations} {j : Nat}
    (hi : io.inputs[i]? = some txTo) (hj : io.allOutputs[j]? = some txFrom) (hji : j < i) :
    depsHelper (deps.set i (prunedRow io.Edge deps.row i j)) txFrom txTo i j =
      deps.set i (prunedRow io.Edge deps.row i (j + 1)) := by
  have hedge : io.Edge i j ↔ hasReadDep txFrom txTo = true := by
    have hlength := (List.getElem?_eq_some_iff.mp hi).1
    rw [ VersionedIO.Edge, List.getD_eq_getElem?_getD, hj, List.getD_eq_getElem?_getD, hi]
    exact and_iff_right hlength
  rw [depsHelper, prunedRow, Deps.row_set, Deps.row_set, if_pos rfl, if_neg hji.ne, Deps.set_set]
  by_cases hdep : hasReadDep txFrom txTo = true
  · rw [if_pos hdep, if_pos (hedge.mpr hdep)]
  · rw [if_neg hdep, if_neg (mt hedge.mp hdep)]

variable {io : VersionedIO}

/-- The loop leaves the pruned predecessors. -/
theorem depsLoop_range {t : TxDep} (hfeeds : Feeds io i t) (deps : Deps) {m : Nat} (hm : m ≤ i) :
    depsLoop t.fullWriteList t.reads i (List.range m) (deps.set i ∅) =
      .ok (deps.set i (prunedRow io.Edge deps.row i m)) := by
  induction m with
  | zero => rfl
  | succ m ih =>
    obtain ⟨txFrom, hout, hfull⟩ := hfeeds.writes m hm
    rw [range_succ, depsLoop_append, ih (Nat.le_of_succ_le hm), Result.ok_bind, depsLoop, hfull]
    exact congrArg Result.ok (depsHelper_eq io hfeeds.reads hout hm)

/-- The rows below `n` are pruned, and there are no others. -/
def Settled (io : VersionedIO) (n : Nat) (deps : Deps) : Prop :=
  (∀ i < n, deps.row i = prunedRow io.Edge deps.row i i) ∧ ∀ i, n ≤ i → deps.row i = ∅

section

variable (hsettled : Settled io n deps)

include hsettled

theorem settled_updateDeps {t : TxDep} (hfeeds : Feeds io n t) :
    ∃ deps', updateDeps deps t = .ok deps' ∧ Settled io (n + 1) deps' := by
  have hloop := depsLoop_range hfeeds deps le_rfl
  refine ⟨_, by rw [updateDeps, hfeeds.index, hloop], fun i hi => ?_, fun i hi => ?_⟩
  · have hrows : ∀ j < i, (deps.set n (prunedRow io.Edge deps.row n n)).row j = deps.row j := by
      intro j hj
      rw [Deps.row_set, if_neg (by omega)]
    rw [prunedRow_congr hrows, Deps.row_set]
    split
    · rename_i heq
      rw [heq]
    · exact hsettled.1 i (by omega)
  · rw [Deps.row_set, if_neg (by omega)]
    exact hsettled.2 i (by omega)

theorem settled_updateAll {ts : List TxDep}
    (hfeeds : ∀ k t, ts[k]? = some t → Feeds io (n + k) t) :
    ∃ deps', updateAll ts deps = .ok deps' ∧ Settled io (n + ts.length) deps' := by
  induction ts generalizing n deps with
  | nil => exact ⟨deps, rfl, hsettled⟩
  | cons t ts ih =>
    obtain ⟨deps₁, hupdate, hsettled₁⟩ := settled_updateDeps hsettled (hfeeds 0 t rfl)
    obtain ⟨deps', hrest, hsettled'⟩ := ih hsettled₁ fun k t' ht' => by
      have hnext := hfeeds (k + 1) t' ht'
      rwa [Nat.add_comm k 1, ← Nat.add_assoc] at hnext
    refine ⟨deps', by rw [updateAll, hupdate]; exact hrest, ?_⟩
    rwa [length_cons, Nat.add_comm ts.length 1, ← Nat.add_assoc]

/-- What is settled for all transactions is pruned everywhere. -/
theorem Settled.rows (hn : io.inputs.length ≤ n) (i : Nat) :
    deps.row i = prunedRow io.Edge deps.row i i := by
  rcases Nat.lt_or_ge i n with hi | hi
  · exact hsettled.1 i hi
  · rw [hsettled.2 i hi, eq_comm, Finset.eq_empty_iff_forall_notMem]
    intro j hj
    exact absurd (lt_and_edge_of_mem_prunedRow hj).2.1 (not_lt.mpr (hn.trans hi))

theorem Settled.unique {n' : Nat} {deps' : Deps}
    (hn : io.inputs.length ≤ n) (hsettled' : Settled io n' deps') (hn' : io.inputs.length ≤ n')
    (i : Nat) : deps.row i = deps'.row i := by
  induction i using Nat.strong_induction_on with
  | h i ih => rw [hsettled.rows hn, hsettled'.rows hn', prunedRow_congr ih]

end

theorem getDepLoop_eq (writes : List WriteLocations) (l : List (ReadLocations × Nat))
    (deps : Deps) :
    getDepLoop writes l deps = updateAll (l.map fun x => ⟨x.2, x.1, writes⟩) deps := by
  induction l generalizing deps with
  | nil => rfl
  | cons x l ih =>
    rw [getDepLoop, map_cons, updateAll, updateDeps]
    exact congrArg _ (funext ih)

theorem settled_getDep (hlength : io.inputs.length ≤ io.allOutputs.length + 1) :
    ∃ deps n, getDep io = .ok deps ∧ io.inputs.length ≤ n ∧ Settled io n deps := by
  have hempty : Settled io 1 fun _ => none := by
    refine ⟨fun i hi => ?_, fun _ _ => rfl⟩
    rw [Nat.lt_one_iff.mp hi]
    rfl
  have hfeeds : ∀ k t, ((io.inputs.zipIdx.drop 1).map
      fun x => (⟨x.2, x.1, io.allOutputs⟩ : TxDep))[k]? = some t → Feeds io (1 + k) t := by
    intro k t ht
    rw [getElem?_map, getElem?_drop, getElem?_zipIdx] at ht
    cases hget : io.inputs[1 + k]? with
    | none => simp [hget] at ht
    | some txTo =>
      have hk := (List.getElem?_eq_some_iff.mp hget).1
      simp only [hget, Option.map_some, Option.some.injEq] at ht
      subst ht
      refine ⟨by simp, hget, fun j hj => ?_⟩
      have hj : j < io.allOutputs.length := by omega
      exact ⟨_, getElem?_eq_getElem hj, getElem?_eq_getElem hj⟩
  obtain ⟨deps, hupdate, hsettled⟩ := settled_updateAll hempty hfeeds
  refine ⟨deps, _, by rw [getDep, getDepLoop_eq, hupdate], ?_, hsettled⟩
  rw [length_map, length_drop, length_zipIdx]
  omega

/-- `GetDep` connects the same transactions as all conflicts do, and `UpdateDeps` for one
transaction after the other computes the same edges. -/
theorem getDep_closure (io : VersionedIO)
    (hlength : io.inputs.length ≤ io.allOutputs.length + 1) :
    ∃ deps, getDep io = .ok deps ∧
      (∀ i j, TransGen deps.Rel i j ↔ TransGen (fun i j => j < i ∧ io.Edge i j) i j) ∧
      ∀ ts : List TxDep, ts.length = io.inputs.length →
        (∀ i t, ts[i]? = some t → Feeds io i t) →
          ∃ deps', updateAll ts (fun _ => none) = .ok deps' ∧
            ∀ i j, deps'.Rel i j ↔ deps.Rel i j := by
  obtain ⟨deps, n, hget, hn, hsettled⟩ := settled_getDep hlength
  refine ⟨deps, hget, transGen_prunedRow (hsettled.rows hn), fun ts hts hfeeds => ?_⟩
  have hempty : Settled io 0 fun _ => none := ⟨fun i hi => absurd hi (Nat.not_lt_zero i), fun _ _ => rfl⟩
  have hfeeds' : ∀ k t, ts[k]? = some t → Feeds io (0 + k) t := fun k t ht => by
    rw [Nat.zero_add]
    exact hfeeds k t ht
  obtain ⟨deps', hupdate, hsettled'⟩ := settled_updateAll hempty hfeeds'
  rw [Nat.zero_add] at hsettled'
  refine ⟨deps', hupdate, fun i j => ?_⟩
  rw [Deps.Rel, Deps.Rel, hsettled'.unique hts.ge hsettled hn]

/-- Three transactions that write and read one balance. -/
def chainIO : VersionedIO :=
  ⟨[∅, {(7, .balance)}, {(7, .balance)}], [[(7, .balance)], [(7, .balance)], []]⟩

theorem getDep_closure_chainIO : ∃ deps, getDep chainIO = .ok deps ∧ TransGen deps.Rel 2 0 := by
  obtain ⟨deps, hget, hclosure, -⟩ := getDep_closure chainIO (by decide)
  exact ⟨deps, hget, (hclosure 2 0).mpr (.single ⟨by decide, by decide⟩)⟩

/-- Schedules that wait for the edges of `GetDep` are those that wait for every conflict. -/
theorem getDep_schedules (io : VersionedIO)
    (hlength : io.inputs.length ≤ io.allOutputs.length + 1) :
    ∃ deps, getDep io = .ok deps ∧ ∀ finished : Nat → Nat,
      (∀ i j, deps.Rel i j → finished j < finished i) ↔
        ∀ i j, j < i → io.Edge i j → finished j < finished i := by
  obtain ⟨deps, n, hget, hn, hsettled⟩ := settled_getDep hlength
  have hrows := hsettled.rows hn
  refine ⟨deps, hget, fun finished => ⟨fun h i j hji hedge => ?_, fun h i j hrel => ?_⟩⟩
  · have hpath := (transGen_prunedRow hrows i j).mpr (.single ⟨hji, hedge⟩)
    clear hji hedge
    induction hpath with
    | single hrel => exact h _ _ hrel
    | tail _ hrel ih => exact (h _ _ hrel).trans ih
  · rw [Deps.Rel, hrows] at hrel
    obtain ⟨hji, hedge⟩ := lt_and_edge_of_mem_prunedRow hrel
    exact h i j hji hedge

theorem getDep_schedules_chainIO : ∃ deps, getDep chainIO = .ok deps ∧
    ∀ i j, deps.Rel i j → j < i := by
  obtain ⟨deps, hget, hschedules⟩ := getDep_schedules chainIO (by decide)
  exact ⟨deps, hget, (hschedules id).mpr fun i j hji _ => hji⟩

end IntraBlock

end Erigon

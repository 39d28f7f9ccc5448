/-
Reverts in a transaction with a version map: which versioned writes come back with
the objects, and with them what the versioned getters return.
-/
import Erigon.IntraBlockTame

namespace Erigon

namespace IntraBlock

open Act (get modify attempt Lands)

/-! ### Dirty marks -/

/-- Undoing takes dirty marks away and adds none. -/
theorem unwind_dirties_le (es : List JournalEntry) (s : State) (addr : Address) :
    (undoLog.unwind es s).dirties addr ≤ s.dirties addr := by
  induction es generalizing s with
  | nil => exact Nat.le_refl _
  | cons e es ih =>
    refine (ih (undoEntry e s)).trans ?_
    have hdirties : (undone e s).dirties = s.dirties := congrArg Prod.fst (undone_marks e s)
    rw [← hdirties, undoEntry, State.dropEntry]
    cases e.dirtied with
    | none => exact Nat.le_refl _
    | some account =>
      by_cases haddr : addr = account
      · simp [haddr]
      · simp [haddr]

section Runs

variable {reader : StateReader} {answer : Location → ReadResult} {D : Address → Prop}

variable {g s : State}

/-- What was dirty is still dirty. -/
theorem TakesBack.dirties_le (h : undoLog.TakesBack (Alike D) g s) (addr : Address) :
    g.dirties addr ≤ s.dirties addr := by
  obtain ⟨es, -, -, halike⟩ := h
  rw [← halike.dirties]
  exact unwind_dirties_le es s addr

/-! ### Runs -/

/-- The state after the revert of the journal to a revision. -/
def State.settled (s : State) (revid : Nat) : State :=
  { s with
    validRevisions := s.validRevisions.filter fun rev => rev.1 < revid
    versionedWrites := fun addr => if s.dirties addr = 0 then fun _ => none
      else s.versionedWrites addr }

theorem run_revertToSnapshot_versioned {rev : Nat × Nat} {es : List JournalEntry}
    (hfind : s.validRevisions.find? (fun older => older.1 = rev.1) = some rev)
    (hlen : g.journal.length = rev.2) (hjournal : s.journal = es ++ g.journal)
    (hready : undoLog.AllReady es s) (hversioned : (undoLog.unwind es s).versioned = true) :
    Act.run answer (revertToSnapshot reader rev.1) s =
      (.ok (), (undoLog.unwind es s).settled rev.1) := by
  have hrun : Act.run answer (revertJournal reader rev.2 s.journal) s =
      (.ok (), undoLog.unwind es s) := by
    rw [← hlen, hjournal]
    exact run_revertJournal reader answer hjournal hready
  rw [revertToSnapshot, Act.run_get_bind, hfind]
  dsimp only
  rw [Act.run_bind_ok answer hrun, Act.run_modify_bind, Act.run_modify,
    if_pos (by exact hversioned)]
  rfl

/-- The writes of dirty addresses stay. -/
theorem alike_settled (hs : s.versioned = true) (revid : Nat)
    (hdirty : ∀ addr, D addr → s.dirties addr ≠ 0) : Alike D (s.settled revid) s := by
  have hrefl : Alike D s s := .refl hs
  refine { hrefl with writes := fun addr key hD => ?_ }
  simp [State.written, State.settled, hdirty addr hD]

/-- What a run after the snapshot at `s₀` keeps. -/
structure Tracks (D : Address → Prop) (s₀ s : State) : Prop where
  versioned : Versioned s
  revisions : ∃ newer, s.validRevisions = newer ++ s₀.validRevisions ∧
    (s₀.nextRevisionId, s₀.journal.length) ∈ newer ∧
    undoLog.Tracked (fun _ => Alike D)
      (fun id g => Versioned g ∧ (id = s₀.nextRevisionId → g = s₀)) s.nextRevisionId newer s
  next : s₀.nextRevisionId < s.nextRevisionId

namespace Tracks

variable {s₀ s : State}

theorem takesBack (h : Tracks D s₀ s) : undoLog.TakesBack (Alike D) s₀ s := by
  obtain ⟨newer, -, hmem, htracked⟩ := h.revisions
  obtain ⟨g, hg, -, hback⟩ := htracked.stands _ hmem
  exact hg.2 rfl ▸ hback

variable {s' : State}

theorem step (h : Tracks D s₀ s) (hstep : WriteStep D s s') : Tracks D s₀ s' := by
  obtain ⟨newer, hvalid, hmem, htracked⟩ := h.revisions
  refine ⟨hstep.versionedState, ⟨newer, hstep.validRevisions.trans hvalid, hmem, ?_⟩, ?_⟩
  · rw [hstep.nextRevisionId]
    exact htracked.step (fun _ => undoLog_respects_alike D) fun _ => hstep.back
  · rw [hstep.nextRevisionId]
    exact h.next

theorem snapshot (h : Tracks D s₀ s) : Tracks D s₀ s.snapshot := by
  obtain ⟨newer, hvalid, hmem, htracked⟩ := h.revisions
  have halike : Alike D s.snapshot s := { Alike.refl h.versioned.versioned with }
  refine ⟨{ h.versioned with }, ⟨(s.nextRevisionId, s.journal.length) :: newer, ?_, ?_, ?_⟩, ?_⟩
  · exact congrArg ((s.nextRevisionId, s.journal.length) :: ·) hvalid
  · exact List.mem_cons_of_mem _ hmem
  · refine (htracked.snapshot ⟨h.versioned, fun heq => absurd heq (Nat.ne_of_gt h.next)⟩
      (Alike.refl h.versioned.versioned)).step (fun _ => undoLog_respects_alike D) fun _ => ?_
    exact .of_rel rfl halike
  · exact Nat.lt_succ_of_lt h.next

/-- A revert to the snapshot at `s₀` or to a later one. -/
theorem run_revertToSnapshot (reader : StateReader) (answer : Location → ReadResult)
    (h : Tracks D s₀ s) (hold : ∀ rev ∈ s₀.validRevisions, rev.1 < s₀.nextRevisionId) {rev : Nat × Nat}
    (hrev : s₀.nextRevisionId ≤ rev.1)
    (hfind : s.validRevisions.find? (fun older => older.1 = rev.1) = some rev) :
    ∃ u g newer, Act.run answer (revertToSnapshot reader rev.1) s = (.ok (), u.settled rev.1) ∧
      (rev.1 = s₀.nextRevisionId → g = s₀) ∧ Alike D u g ∧ Versioned u ∧
      u.nextRevisionId = s.nextRevisionId ∧ u.validRevisions = newer ++ s₀.validRevisions ∧
      (s₀.nextRevisionId, s₀.journal.length) ∈ newer ∧ undoLog.Tracked (fun _ => Alike D)
        (fun id g => Versioned g ∧ (id = s₀.nextRevisionId → g = s₀)) s.nextRevisionId
        (newer.filter fun older => older.1 < rev.1) u := by
  obtain ⟨newer, hvalid, hmem, htracked⟩ := h.revisions
  have hnewer : rev ∈ newer := by
    have hrev' := List.mem_of_find?_eq_some hfind
    rw [hvalid, List.mem_append] at hrev'
    exact hrev'.resolve_right fun hmem => absurd (hold rev hmem) (Nat.not_lt_of_le hrev)
  obtain ⟨g, es, ⟨hg, hstands⟩, hlen, hjournal, hready, halike, hrest⟩ := htracked.revert hnewer
  have hrevisions := unwind_revisions es s
  rw [State.revisions, State.revisions, Prod.mk.injEq] at hrevisions
  refine ⟨undoLog.unwind es s, g, newer, ?_, hstands, halike, ⟨halike.versioned.1, fun i hi => ?_⟩,
    hrevisions.2, hrevisions.1.trans hvalid, hmem, hrest⟩
  · exact run_revertToSnapshot_versioned hfind hlen hjournal hready halike.versioned.1
  · rw [halike.logs]
    exact hg.laterLogs i (halike.txIndex ▸ hi)

theorem revertToSnapshot (h : Tracks D s₀ s)
    (hold : ∀ rev ∈ s₀.validRevisions, rev.1 < s₀.nextRevisionId)
    (hdirty : ∀ addr, D addr → s₀.dirties addr ≠ 0) {revid : Nat} (hrev : s₀.nextRevisionId < revid)
    {r : Except String Unit}
    (hrun : Act.run answer (attempt (IntraBlock.revertToSnapshot reader revid)) s = (.ok r, s')) :
    Tracks D s₀ s' := by
  rw [Act.run_attempt] at hrun
  cases hfind : s.validRevisions.find? (fun older => older.1 = revid) with
  | none =>
    rw [IntraBlock.revertToSnapshot, Act.run_get_bind, hfind] at hrun
    cases hrun
  | some rev =>
    obtain rfl : rev.1 = revid := by simpa using List.find?_some hfind
    obtain ⟨u, g, newer, hrun', -, -, hu, hnext, hvalid, hmem, htracked⟩ :=
      run_revertToSnapshot reader answer h hold hrev.le hfind
    rw [hrun'] at hrun
    cases hrun
    have hmem' : (s₀.nextRevisionId, s₀.journal.length) ∈
        newer.filter fun older => older.1 < rev.1 := by
      simpa [hmem] using hrev
    have halike : Alike D (u.settled rev.1) u := by
      refine alike_settled hu.versioned rev.1 fun addr hD hzero => hdirty addr hD ?_
      obtain ⟨g', hg', -, hback⟩ := htracked.stands _ hmem'
      have hle := TakesBack.dirties_le hback addr
      rw [hg'.2 rfl, hzero] at hle
      exact Nat.le_zero.mp hle
    refine ⟨{ hu with }, ⟨newer.filter fun older => older.1 < rev.1, ?_, hmem', ?_⟩, ?_⟩
    · have holder : (s₀.validRevisions.filter fun older => older.1 < rev.1) =
          s₀.validRevisions :=
        List.filter_eq_self.mpr fun older hmem => by simpa using (hold older hmem).trans hrev
      change u.validRevisions.filter _ = _
      rw [hvalid, List.filter_append, holder]
    · change undoLog.Tracked _ _ u.nextRevisionId _ _
      rw [hnext]
      exact htracked.step (fun _ => undoLog_respects_alike D) fun _ => .of_rel rfl halike
    · exact hnext ▸ h.next

section

variable (h : Tracks D s₀ s) (keccak : Bytes → Hash)
  (hold : ∀ rev ∈ s₀.validRevisions, rev.1 < s₀.nextRevisionId)

include h keccak hold

theorem run_command (hdirty : ∀ addr, D addr → s₀.dirties addr ≠ 0) {command : Command}
    (htame : command.Tame reader answer D s₀.nextRevisionId s) {r : Except String Unit}
    (hrun : Act.run answer (attempt (command.call reader keccak)) s = (.ok r, s')) :
    Tracks D s₀ s' := by
  have htamed {A : Type} {x : Call A} (hx : Tamed D answer x s) {r : Except String A}
      (hrun : Act.run answer (attempt x) s = (.ok r, s')) : Tracks D s₀ s' := by
    rw [Act.run_attempt] at hrun
    unfold Tamed at hx
    match Act.run answer x s, hx, hrun with
    | (.ok a, _), hx, rfl => exact h.step hx.1
    | (.error e, _), hx, rfl => exact h.step hx
  cases command with
  | get g => exact htamed (tamed_map _ (tamed_getter h.versioned htame)) hrun
  | change c =>
    refine htamed (tamed_change keccak h.versioned (fun addr hD hzero => hdirty addr hD ?_) htame) hrun
    exact Nat.le_zero.mp (hzero ▸ TakesBack.dirties_le h.takesBack addr)
  | snapshot =>
    cases hrun
    exact h.snapshot
  | revertToSnapshot revid => exact h.revertToSnapshot hold hdirty htame hrun

theorem run_runAll (hdirty : ∀ addr, D addr → s₀.dirties addr ≠ 0) {commands : List Command}
    (htame : TameRun reader answer D keccak s₀.nextRevisionId commands s)
    (hrun : Act.run answer (runAll reader keccak commands) s = (.ok (), s')) :
    Tracks D s₀ s' := by
  induction commands generalizing s with
  | nil =>
    cases hrun
    exact h
  | cons command commands ih =>
    obtain ⟨hfirst, hrest⟩ := htame
    rw [runAll, Act.run_bind] at hrun
    rcases hcall : Act.run answer (attempt (command.call reader keccak)) s with ⟨r | e | e, t⟩
    · simp only [hcall] at hrun hrest
      exact ih (h.run_command keccak hold hdirty hfirst hcall) hrest hrun
    · simp [hcall] at hrun
    · simp [hcall] at hrun

end

end Tracks

theorem tracks_snapshot (hs : Versioned s) : Tracks D s s.snapshot := by
  have hrefl : Alike D s s := .refl hs.versioned
  have halike : Alike D s.snapshot s := { hrefl with }
  have hempty : undoLog.Tracked (fun _ => Alike D)
      (fun id g => Versioned g ∧ (id = s.nextRevisionId → g = s)) s.nextRevisionId [] s :=
    ⟨.nil, by simp, by simp⟩
  refine ⟨{ hs with }, ⟨[(s.nextRevisionId, s.journal.length)], rfl, by simp, ?_⟩,
    Nat.lt_succ_self _⟩
  refine (hempty.snapshot ⟨hs, fun _ => rfl⟩ hrefl).step (fun _ => undoLog_respects_alike D) fun _ => ?_
  exact .of_rel rfl halike

end Runs

/-! ### Reverts -/

/-- The versioned getters that do not look at the storage. -/
def Getter.OfAccount : Getter → Prop
  | .getBalance _ | .getNonce _ | .getCode _ | .getCodeHash _ | .getCodeSize _
  | .hasSelfdestructed _ => True
  | _ => False

theorem blind_getter {D : Address → Prop} {reader : StateReader} {answer : Location → ReadResult}
    {g : Getter} (hg : g.OfAccount) : Act.Blind (Twin D) answer (g.call reader) := by
  cases g with
  | getBalance addr => exact (blind_getBalance addr).map _
  | getNonce addr => exact (blind_getNonce addr).map _
  | getCode addr => exact (blind_getCode addr).map _
  | getCodeSize addr => exact (blind_getCodeSize addr).map _
  | getCodeHash addr => exact (blind_getCodeHash addr).map _
  | hasSelfdestructed addr => exact (blind_hasSelfdestructed addr).map _
  | exist addr => exact hg.elim
  | isEmpty addr => exact hg.elim
  | getState addr key => exact hg.elim
  | getCommittedState addr key => exact hg.elim

/-- A database without accounts. -/
def nothingStored : StateReader :=
  ⟨fun _ => .ok none, fun _ _ => .ok none, fun _ => .ok none, fun _ => .ok 0⟩

/-- A version map without entries. -/
def nothingWritten : Location → ReadResult := fun _ => ⟨-1, -1, none⟩

/-- A transaction that has set a nonce. -/
def nonceSet : State :=
  (Act.run nothingWritten (setNonce nothingStored 7 1) (State.new true 0)).2

end IntraBlock

end Erigon

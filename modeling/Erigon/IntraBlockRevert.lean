/-
Snapshots and reverts in a transaction without a version map: commands, the states
that the revisions stand for, and what a revert gives back.
-/
import Erigon.IntraBlockChanges

namespace Erigon

namespace IntraBlock

open Act (get modify attempt Lands)

/-! ### Commands -/

inductive Getter
  | exist (addr : Address)
  | isEmpty (addr : Address)
  | getBalance (addr : Address)
  | getNonce (addr : Address)
  | getCode (addr : Address)
  | getCodeSize (addr : Address)
  | getCodeHash (addr : Address)
  | getState (addr : Address) (key : StorageKey)
  | getCommittedState (addr : Address) (key : StorageKey)
  | hasSelfdestructed (addr : Address)

inductive Change
  | createAccount (addr : Address) (contractCreation : Bool)
  | addBalance (addr : Address) (amount : Uint256)
  | subBalance (addr : Address) (amount : Uint256)
  | setBalance (addr : Address) (amount : Uint256)
  | setNonce (addr : Address) (nonce : Word)
  | setCode (addr : Address) (code : Option Bytes)
  | setState (addr : Address) (key : StorageKey) (value : Uint256)
  | setTransientState (addr : Address) (key : StorageKey) (value : Uint256)
  | selfdestruct (addr : Address)
  | addLog (payload : Bytes)
  | addRefund (gas : Word)
  | subRefund (gas : Word)
  | addAddressToAccessList (addr : Address)
  | addSlotToAccessList (addr : Address) (slot : StorageKey)

inductive Command
  | get (g : Getter)
  | change (c : Change)
  | snapshot
  | revertToSnapshot (revid : Nat)

section Calls

variable (reader : StateReader) (keccak : Bytes → Hash)

/-- The value of a getter. -/
def Getter.call : Getter → Call Val
  | .exist addr => .bool <$> IntraBlock.exist reader addr
  | .isEmpty addr => .bool <$> IntraBlock.isEmpty reader addr
  | .getBalance addr => .uint256 <$> IntraBlock.getBalance reader addr
  | .getNonce addr => .uint64 <$> IntraBlock.getNonce reader addr
  | .getCode addr => .bytes <$> IntraBlock.getCode reader addr
  | .getCodeSize addr => .int <$> IntraBlock.getCodeSize reader addr
  | .getCodeHash addr => .hash <$> IntraBlock.getCodeHash reader addr
  | .getState addr key => .uint256 <$> IntraBlock.getState reader addr key
  | .getCommittedState addr key => .uint256 <$> IntraBlock.getCommittedState reader addr key
  | .hasSelfdestructed addr => .bool <$> IntraBlock.hasSelfdestructed reader addr

def Change.call : Change → Call Unit
  | .createAccount addr contractCreation => IntraBlock.createAccount reader addr contractCreation
  | .addBalance addr amount => IntraBlock.addBalance reader addr amount
  | .subBalance addr amount => IntraBlock.subBalance reader addr amount
  | .setBalance addr amount => IntraBlock.setBalance reader addr amount
  | .setNonce addr nonce => IntraBlock.setNonce reader addr nonce
  | .setCode addr code => IntraBlock.setCode reader keccak addr code
  | .setState addr key value => IntraBlock.setState reader addr key value
  | .setTransientState addr key value => IntraBlock.setTransientState addr key value
  | .selfdestruct addr => (fun _ => ()) <$> IntraBlock.selfdestruct reader addr
  | .addLog payload => IntraBlock.addLog payload
  | .addRefund gas => IntraBlock.addRefund gas
  | .subRefund gas => IntraBlock.subRefund gas
  | .addAddressToAccessList addr => IntraBlock.addAddressToAccessList addr
  | .addSlotToAccessList addr slot => IntraBlock.addSlotToAccessList addr slot

def Command.call : Command → Call Unit
  | .get g => (fun _ => ()) <$> g.call reader
  | .change c => c.call reader keccak
  | .snapshot => (fun _ => ()) <$> IntraBlock.snapshot
  | .revertToSnapshot revid => IntraBlock.revertToSnapshot reader revid

/-- Commands in turn; an error is the caller's, a panic ends the run. -/
def runAll : List Command → Call Unit
  | [] => pure ()
  | command :: rest => do
    let _ ← attempt (command.call reader keccak)
    runAll rest

end Calls

/-- The state after a snapshot, of which the number is `nextRevisionId`. -/
def State.snapshot (s : State) : State :=
  { s with
    nextRevisionId := s.nextRevisionId + 1
    validRevisions := (s.nextRevisionId, s.journal.length) :: s.validRevisions }

/-- The start of a transaction. -/
structure Start (reader : StateReader) (s : State) : Prop extends Sound reader s where
  journal : s.journal = []
  validRevisions : s.validRevisions = []

section Reader

variable {reader : StateReader} {care : Care}

/-! ### Runs -/

/-- Only a read of a committed value and a self-destruct leave traces that may matter. -/
def Command.Keeps (care : Care) : Command → Prop
  | .get (.getCommittedState _ _) => ¬ care.origins
  | .change (.selfdestruct _) => ¬ care.marks
  | _ => True

theorem moves_getter {g : Getter} (hg : (Command.get g).Keeps care) :
    Moving reader care (g.call reader) := by
  cases g with
  | exist addr => exact moves_map _ (moves_exist addr)
  | isEmpty addr => exact moves_map _ (moves_isEmpty addr)
  | getBalance addr => exact moves_map _ (moves_getBalance addr)
  | getNonce addr => exact moves_map _ (moves_getNonce addr)
  | getCode addr => exact moves_map _ (moves_getCode addr)
  | getCodeSize addr => exact moves_map _ (moves_getCodeSize addr)
  | getCodeHash addr => exact moves_map _ (moves_getCodeHash addr)
  | getState addr key => exact moves_map _ (moves_getState addr key)
  | getCommittedState addr key => exact moves_map _ (moves_getCommittedState hg addr key)
  | hasSelfdestructed addr => exact moves_map _ (moves_hasSelfdestructed addr)

theorem moves_change (keccak : Bytes → Hash) {c : Change} (hc : (Command.change c).Keeps care) :
    Moving reader care (c.call reader keccak) := by
  cases c with
  | createAccount addr contractCreation => exact moves_createAccount addr contractCreation
  | addBalance addr amount => exact moves_addBalance addr amount
  | subBalance addr amount => exact moves_subBalance addr amount
  | setBalance addr amount => exact moves_setBalance addr amount
  | setNonce addr nonce => exact moves_setNonce addr nonce
  | setCode addr code => exact moves_setCode keccak addr code
  | setState addr key value => exact moves_setState addr key value
  | setTransientState addr key value => exact entrySteps_step.moves_setTransientState addr key value
  | selfdestruct addr => exact moves_map _ (moves_selfdestruct hc addr)
  | addLog payload => exact moves_addLog payload
  | addRefund gas => exact entrySteps_step.moves_addRefund gas
  | subRefund gas => exact entrySteps_step.moves_subRefund gas
  | addAddressToAccessList addr => exact entrySteps_step.moves_addAddressToAccessList addr
  | addSlotToAccessList addr slot => exact entrySteps_step.moves_addSlotToAccessList addr slot

/-- What a run keeps: the state can be taken back to what its revisions stand for. -/
structure Kept (reader : StateReader) (care : Nat → Care) (Stands : Nat → State → Prop)
    (s : State) : Prop where
  sound : Sound reader s
  tracked : undoLog.Tracked (fun id => Like reader (care id))
    (fun id g => Sound reader g ∧ Stands id g) s.nextRevisionId s.validRevisions s
  later : ∀ id g, s.nextRevisionId ≤ id → Stands id g

variable {s s' : State}

theorem tracked_snapshot {care : Nat → Care} {Stands : Nat → State → Prop} (hs : Sound reader s)
    (htracked : undoLog.Tracked (fun id => Like reader (care id))
      (fun id g => Sound reader g ∧ Stands id g) s.nextRevisionId s.validRevisions s)
    (hstands : Stands s.nextRevisionId s) :
    undoLog.Tracked (fun id => Like reader (care id)) (fun id g => Sound reader g ∧ Stands id g)
      s.snapshot.nextRevisionId s.snapshot.validRevisions s.snapshot := by
  have hlike (id : Nat) : Like reader (care id) s.snapshot s :=
    { Like.refl hs.toPlain with left := { hs.toPlain with } }
  exact (htracked.snapshot ⟨hs, hstands⟩ (Like.refl hs.toPlain)).step (fun _ => undoLog_respects)
    fun id => .of_rel rfl (hlike id)

namespace Kept

variable {care : Nat → Care} {Stands : Nat → State → Prop} {s : State}

theorem step {s' : State} (hs : Kept reader care Stands s)
    (hstep : ∀ id, Step reader (care id) s s') : Kept reader care Stands s' where
  sound := (hstep 0).sound
  tracked := by
    rw [(hstep 0).validRevisions, (hstep 0).nextRevisionId]
    exact hs.tracked.step (fun _ => undoLog_respects) fun id => (hstep id).back
  later := by
    rw [(hstep 0).nextRevisionId]
    exact hs.later

/-- An operation ends, with a value or an error. -/
theorem run_attempt (answer : Location → ReadResult) (hs : Kept reader care Stands s) {A : Type}
    {x : Call A} (hx : ∀ id, Moving reader (care id) x) :
    ∃ r s', Act.run answer (attempt x) s = (.ok r, s') ∧ Kept reader care Stands s' := by
  have hlands (id : Nat) := hx id answer s hs.sound
  rw [Act.run_attempt]
  match Act.run answer x s, hlands with
  | (.ok a, s'), hlands => exact ⟨.ok a, s', rfl, hs.step fun id => (hlands id).1⟩
  | (.error e, s'), hlands => exact ⟨.error e, s', rfl, hs.step hlands⟩
  | (.panic e, s'), hlands => exact (hlands 0).elim

theorem snapshot (hs : Kept reader care Stands s) : Kept reader care Stands s.snapshot :=
  ⟨{ hs.sound with }, tracked_snapshot hs.sound hs.tracked (hs.later _ s (Nat.le_refl _)),
    fun id g hid => hs.later id g (Nat.le_of_succ_le hid)⟩

end Kept

/-! ### Reverts -/

/-- The revisions and their numbers. -/
def State.revisions (s : State) : List (Nat × Nat) × Nat := (s.validRevisions, s.nextRevisionId)

/-- What taking back a change leaves as it is: the dirty marks go with the entry itself. -/
def State.marks (s : State) : (Address → Nat) × List (Nat × Nat) × Nat := (s.dirties, s.revisions)

theorem restoreWrite_marks (s : State) (addr : Address) (key : AccountKey) (original : Bool)
    (prev : Val) : (s.restoreWrite addr key original prev).marks = s.marks := by
  unfold State.restoreWrite
  split
  · rfl
  · split <;> rfl

variable (e : JournalEntry)

theorem undone_marks (s : State) : (undone e s).marks = s.marks := by
  cases e with
  | selfdestructChange account prev prevbalance =>
    rw [undone, State.clearWrite]
    split
    · exact restoreWrite_marks _ _ _ _ _
    · exact restoreWrite_marks _ _ _ _ _
  | balanceChange account prev | nonceChange account prev
  | storageChange account key prevalue wasCommited => exact restoreWrite_marks _ _ _ _ _
  | codeChange account prevcode prevhash =>
    exact (restoreWrite_marks _ _ _ _ _).trans (restoreWrite_marks _ _ _ _ _)
  | resetObjectChange account prev =>
    rw [undone, State.setStateObject]
    split
    · split <;> rfl
    · rfl
  | balanceIncrease account increase =>
    rw [undone]
    split <;> rfl
  | createObjectChange account => rfl
  | balanceIncreaseTransfer account => rfl
  | refundChange prev => rfl
  | addLogChange txIndex => rfl
  | touchChange account => rfl
  | accessListAddAccountChange address => rfl
  | accessListAddSlotChange address slot => rfl
  | transientStorageChange account key prevalue => rfl

theorem undoEntry_revisions (s : State) :
    (undoEntry e s).revisions = s.revisions := by
  refine Eq.trans ?_ (congrArg Prod.snd (undone_marks e s))
  rw [undoEntry, State.dropEntry]
  split <;> rfl

theorem unwind_revisions (es : List JournalEntry) (s : State) :
    (undoLog.unwind es s).revisions = s.revisions := by
  induction es generalizing s with
  | nil => rfl
  | cons e es ih => exact (ih (undoEntry e s)).trans (undoEntry_revisions e s)

section

variable (answer : Location → ReadResult)

/-- A revert to a revision that is still valid gives back what it stands for. -/
theorem run_revertToSnapshot {care : Nat → Care}
    {Stands : Nat → State → Prop} (hs : Kept reader care Stands s) {revid : Nat}
    (hvalid : ∃ rev ∈ s.validRevisions, rev.1 = revid) :
    ∃ g t, Stands revid g ∧ Sound reader g ∧ Like reader (care revid) t g ∧
      Kept reader care Stands t ∧
      Act.run answer (revertToSnapshot reader revid) s = (.ok (), t) := by
  obtain ⟨rev, hfind⟩ : ∃ rev, s.validRevisions.find? (fun rev => rev.1 = revid) = some rev := by
    rw [← Option.isSome_iff_exists, List.find?_isSome]
    simpa using hvalid
  obtain rfl : rev.1 = revid := by simpa using List.find?_some hfind
  obtain ⟨g, es, ⟨hg, hstands⟩, hlen, hjournal, hready, hlike, htracked⟩ :=
    hs.tracked.revert (List.mem_of_find?_eq_some hfind)
  have hrevisions := unwind_revisions es s
  rw [State.revisions, State.revisions, Prod.mk.injEq] at hrevisions
  set u := undoLog.unwind es s with hu
  set t : State := { u with
    validRevisions := u.validRevisions.filter fun older => older.1 < rev.1 } with ht
  have hplain : Plain reader t := { hlike.left with }
  have hlike' : Like reader (care rev.1) t g := { hlike with left := hplain }
  refine ⟨g, t, hstands, hg, hlike', ⟨hlike'.sound hg, ?_, ?_⟩, ?_⟩
  · have hsame (id : Nat) : Like reader (care id) t u :=
      { Like.refl hlike.left with left := hplain }
    have hvalid' : t.validRevisions = s.validRevisions.filter fun older => older.1 < rev.1 := by
      rw [← hrevisions.1]
    have hnext : t.nextRevisionId = s.nextRevisionId := hrevisions.2
    rw [hvalid', hnext]
    exact htracked.step (fun _ => undoLog_respects) fun id => .of_rel rfl (hsame id)
  · intro id g' hid
    exact hs.later id g' (hrevisions.2 ▸ hid)
  · have hrun : Act.run answer (revertJournal reader rev.2 s.journal) s = (.ok (), u) := by
      rw [← hlen, show s.journal = es ++ undoLog.journal g from hjournal]
      exact run_revertJournal reader answer hjournal hready
    rw [revertToSnapshot, Act.run_get_bind, hfind]
    dsimp only
    rw [Act.run_bind_ok answer hrun, Act.run_modify_bind, Act.run_modify,
      if_neg (by simp [hlike.left.unversioned])]

variable (keccak : Bytes → Hash)

theorem Kept.run_command
    {care : Nat → Care} {Stands : Nat → State → Prop} (hs : Kept reader care Stands s)
    {command : Command} (hcommand : ∀ id, command.Keeps (care id)) {r : Except String Unit}
    (hrun : Act.run answer (attempt (command.call reader keccak)) s = (.ok r, s')) :
    Kept reader care Stands s' := by
  have hmoving (hx : ∀ id, Moving reader (care id) (command.call reader keccak)) :
      Kept reader care Stands s' := by
    obtain ⟨r', t, hrun', hkept⟩ := hs.run_attempt answer hx
    rw [hrun] at hrun'
    cases hrun'
    exact hkept
  cases command with
  | get g => exact hmoving fun id => moves_map _ (moves_getter (hcommand id))
  | change c => exact hmoving fun id => moves_change keccak (hcommand id)
  | snapshot =>
    cases hrun
    exact hs.snapshot
  | revertToSnapshot revid =>
    by_cases hvalid : ∃ rev ∈ s.validRevisions, rev.1 = revid
    · obtain ⟨g, t, -, -, -, hkept, hrevert⟩ := run_revertToSnapshot answer hs hvalid
      rw [Act.run_attempt, Command.call, hrevert] at hrun
      cases hrun
      exact hkept
    · have hnone : s.validRevisions.find? (fun rev => rev.1 = revid) = none := by
        refine List.find?_eq_none.mpr fun rev hrev hid => hvalid ⟨rev, hrev, ?_⟩
        simpa using hid
      rw [Act.run_attempt, Command.call, revertToSnapshot, Act.run_get_bind,
        hnone] at hrun
      cases hrun

/-- Runs keep what their commands keep. -/
theorem Kept.run_runAll {care : Nat → Care}
    {Stands : Nat → State → Prop} (hs : Kept reader care Stands s) {commands : List Command}
    (hcommands : ∀ id, ∀ command ∈ commands, command.Keeps (care id))
    (hrun : Act.run answer (runAll reader keccak commands) s = (.ok (), s')) :
    Kept reader care Stands s' := by
  induction commands generalizing s with
  | nil =>
    cases hrun
    exact hs
  | cons command commands ih =>
    rw [runAll, Act.run_bind] at hrun
    match hfirst : Act.run answer (attempt (command.call reader keccak)) s with
    | (.error e, t) => simp [hfirst] at hrun
    | (.panic e, t) => simp [hfirst] at hrun
    | (.ok r, t) =>
      simp only [hfirst] at hrun
      have hkept := hs.run_command answer keccak
        (fun id => hcommands id command List.mem_cons_self) hfirst
      exact ih hkept (fun id c hc => hcommands id c (List.mem_cons_of_mem _ hc)) hrun

/-- A revert to a snapshot of any run gives a state like the one at the snapshot. -/
theorem like_revertToSnapshot
    {s₀ u : State} (hstart : Start reader s₀) {history further : List Command}
    (hhistory : Act.run answer (runAll reader keccak history) s₀ = (.ok (), s))
    (hkeeps : ∀ command ∈ further, command.Keeps care)
    (hfurther : Act.run answer (runAll reader keccak further) s.snapshot = (.ok (), u))
    (hvalid : ∃ rev ∈ u.validRevisions, rev.1 = s.nextRevisionId) :
    ∃ t, Act.run answer (revertToSnapshot reader s.nextRevisionId) u = (.ok (), t) ∧
      Sound reader s ∧ Like reader care t s := by
  have hbefore : Kept reader (fun _ => ⟨False, False⟩) (fun _ _ => True) s := by
    refine Kept.run_runAll answer keccak ⟨hstart.toSound, ?_, fun _ _ _ => trivial⟩ ?_ hhistory
    · rw [hstart.validRevisions]
      exact ⟨.nil, by simp, by simp⟩
    · intro _ command _
      unfold Command.Keeps
      split <;> simp
  -- from the snapshot on, what matters matters to it and to later ones
  set care' : Nat → Care := fun id =>
    ⟨s.nextRevisionId ≤ id ∧ care.origins, s.nextRevisionId ≤ id ∧ care.marks⟩ with hcare'
  have hat : Kept reader care' (fun id g => id = s.nextRevisionId → g = s) s.snapshot := by
    refine ⟨{ hbefore.sound with }, tracked_snapshot hbefore.sound (hbefore.tracked.mono ?_ ?_)
      (fun _ => rfl), fun id g hid heq => ?_⟩
    · intro id hlt t g hlike
      exact hlike.mono (fun h => absurd h.1 (Nat.not_le_of_lt hlt))
        (fun h => absurd h.1 (Nat.not_le_of_lt hlt))
    · intro id hlt g hg
      exact ⟨hg.1, fun heq => absurd heq (Nat.ne_of_lt hlt)⟩
    · exact absurd heq (Nat.ne_of_gt hid)
  have hafter := hat.run_runAll answer keccak ?_ hfurther
  · obtain ⟨g, t, hg, -, hlike, -, hrun⟩ := run_revertToSnapshot answer hafter hvalid
    obtain rfl := hg rfl
    exact ⟨t, hrun, hbefore.sound, hlike.mono (fun h => ⟨Nat.le_refl _, h⟩)
      (fun h => ⟨Nat.le_refl _, h⟩)⟩
  · intro id command hcommand
    have hkeep := hkeeps command hcommand
    unfold Command.Keeps at hkeep ⊢
    split at hkeep
    · exact fun h => hkeep h.2
    · exact fun h => hkeep h.2
    · trivial

end

end Reader

end IntraBlock

end Erigon

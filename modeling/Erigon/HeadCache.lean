/-
The head that the fork choice store remembers.  `GetHead` returns it until a call forgets it;
calls that change the votes without that leave a head behind that may no longer be the heaviest.
-/
import Erigon.ForkChoiceHead

namespace Erigon

namespace ForkChoice

open Store

open KeyedTable

/-- A call, with the answers that it gets from outside the store. -/
inductive Call
  | tick (env : Env) (time : Nat)
  | block (env : BlockEnv) (block : BeaconBlock)
  | attestation (data : AttestationData) (fromBlock : Bool) (verified : Except String (List Nat))
  | attesting (data : AttestationData) (indicies : List Nat)
  | slashing (known : Bool) (verified : Except String (List Nat))
      (isSlashable : Nat → Except String Bool)
  | head (heads : List Root)

namespace Store

def call (s : Store) (cfg : BeaconConfig) : Call → Store
  | .tick env time => s.onTick cfg env time
  | .block env block => (s.onBlock cfg env block).2
  | .attestation data fromBlock verified => (s.onAttestation cfg data fromBlock verified).2
  | .attesting data indicies => s.processAttestingIndicies data indicies
  | .slashing known verified isSlashable => (s.onAttesterSlashing known verified isSlashable).2
  | .head heads => (s.getHead cfg heads).2

/-- A call of `GetHead` that ends with an error or not at all. -/
def fails (s : Store) (cfg : BeaconConfig) : Call → Bool
  | .head heads =>
    match (s.getHead cfg heads).1 with
    | .ok _ => false
    | _ => true
  | _ => false

/-- The store remembers a head, and the votes have changed since it was found, or the call of
`GetHead` that left it there has failed. -/
def staleAfter (s : Store) (cfg : BeaconConfig) (stale : Bool) (c : Call) : Bool :=
  decide ((s.call cfg c).headHash ≠ 0) &&
    (stale || s.fails cfg c || decide ((s.call cfg c).latestMessages ≠ s.latestMessages) ||
      decide ((s.call cfg c).equivocatingIndicies ≠ s.equivocatingIndicies))

/-- The two stores have the same of all that `GetHead` reads beside the remembered head. -/
structure SameContents (s s' : Store) : Prop where
  graph : s'.graph = s.graph
  childrens : s'.childrens = s.childrens
  highestSeen : s'.highestSeen = s.highestSeen
  justified : s'.justifiedCheckpoint = s.justifiedCheckpoint
  finalized : s'.finalizedCheckpoint = s.finalizedCheckpoint
  boostRoot : s'.proposerBoostRoot = s.proposerBoostRoot
  latestMessages : s'.latestMessages = s.latestMessages
  equivocating : s'.equivocatingIndicies = s.equivocatingIndicies
  checkpointStates : s'.checkpointStates = s.checkpointStates

section

variable {cfg : BeaconConfig} {s s' : Store}

theorem sameContents_clearHead (s : Store) : s.SameContents s.clearHead :=
  ⟨rfl, rfl, rfl, rfl, rfl, rfl, rfl, rfl, rfl⟩

section

variable (h : s.SameContents s')

include h

theorem SameContents.children_eq (p : Root) : s'.children p = s.children p := by
  rw [children, children, h.childrens]

theorem SameContents.getFilterBlockTree_eq (fuel : Nat) (b : Root)
    (found : List Root) :
    s'.getFilterBlockTree cfg fuel b found = s.getFilterBlockTree cfg fuel b found := by
  have hagrees (b : Root) : s'.agrees cfg b = s.agrees cfg b := by
    rw [agrees, agrees, h.graph, h.justified, h.finalized]
  induction fuel generalizing b found with
  | zero => rfl
  | succ fuel ih =>
    rw [getFilterBlockTree, getFilterBlockTree, h.graph, h.children_eq, hagrees]
    simp only [ih]

theorem SameContents.descend_eq (viable : List Root)
    (weights : Root → Word) (fuel : Nat) (b : Root) :
    s'.descend viable weights fuel b = s.descend viable weights fuel b := by
  induction fuel generalizing b with
  | zero => rfl
  | succ fuel ih =>
    rw [descend, descend, h.children_eq]
    simp only [ih]

theorem SameContents.computeVotes_eq (st : CheckpointState) :
    s'.computeVotes cfg st = s.computeVotes cfg st := by
  have hcount : s'.countVote st = s.countVote st := by
    funext votes i
    rw [countVote, countVote, isUnequivocating, isUnequivocating, h.latestMessages, h.equivocating]
  rw [computeVotes, computeVotes, hcount, h.latestMessages]
  simp only [addBoost, h.boostRoot]

/-- What `GetHead` finds when it has to look: the head and its slot. -/
theorem SameContents.getHead_eq (hs : s.headHash = 0)
    (hs' : s'.headHash = 0) (heads : List Root) :
    (s'.getHead cfg heads).1 = (s.getHead cfg heads).1 := by
  rw [getHead, getHead, if_neg (not_not_intro hs), if_neg (not_not_intro hs'), h.checkpointStates,
    h.justified]
  cases s.checkpointStates s.justifiedCheckpoint with
  | error e => rfl
  | ok st =>
    dsimp only
    rw [h.computeVotes_eq]
    cases s.computeVotes cfg st with
    | error e => rfl
    | panic e => rfl
    | ok votes =>
      dsimp only
      rw [getFilteredBlockTree, getFilteredBlockTree, h.getFilterBlockTree_eq, h.descend_eq,
        h.graph, h.highestSeen]
      split <;> rfl

end

variable (s) (env : Env)

theorem updateCheckpoints_headHash
    (justified finalized : Checkpoint) :
    (s.updateCheckpoints cfg env justified finalized).headHash = s.headHash := by
  rw [updateCheckpoints]
  split <;> split <;> rfl

theorem updateUnrealizedCheckpoints_headHash
    (justified finalized : Checkpoint) :
    (s.updateUnrealizedCheckpoints justified finalized).headHash = s.headHash := by
  rw [updateUnrealizedCheckpoints]
  split <;> split <;> rfl

theorem boostTimely_headHash (block : BeaconBlock) :
    (s.boostTimely cfg block).headHash = s.headHash := by
  rw [boostTimely]
  split <;> rfl

theorem settle_headHash (env : BlockEnv) (block : BeaconBlock)
    (justified finalized : Checkpoint) :
    (s.settle cfg env block justified finalized).2.headHash = s.headHash := by
  rw [settle]
  cases env.unrealized with
  | error e => rfl
  | ok u =>
    dsimp only
    cases env.proposersError with
    | some e => exact s.updateUnrealizedCheckpoints_headHash _ _
    | none =>
      dsimp only
      split
      · rw [updateCheckpoints_headHash, updateUnrealizedCheckpoints_headHash]
      · rw [updateUnrealizedCheckpoints_headHash]

theorem importBlock_headHash (env : BlockEnv) (block : BeaconBlock)
    (justified finalized : Checkpoint) :
    (s.importBlock cfg env block justified finalized).2.headHash = s.headHash := by
  rw [importBlock, settle_headHash, updateCheckpoints_headHash, boostTimely_headHash]
  rfl

theorem onBlock_headHash (env : BlockEnv) (block : BeaconBlock) :
    (s.onBlock cfg env block).2.headHash = 0 := by
  cases haccepts : s.accepts cfg env block with
  | none =>
    rw [onBlock_of_not_accepts haccepts]
    rfl
  | some r =>
    rw [onBlock_of_accepts haccepts, importBlock_headHash]
    rfl

variable (cfg)

/-- A tick forgets the head, or it only moves the clock. -/
theorem onTickPerSlot_cases (time : Nat) :
    (s.onTickPerSlot cfg env time).headHash = 0 ∨
      s.onTickPerSlot cfg env time = { s with time := time } := by
  rw [onTickPerSlot]
  dsimp only
  split
  · exact .inr rfl
  · refine Or.inl ?_
    split
    · rw [updateCheckpoints_headHash]
      rfl
    · rfl

theorem onTick_cases (time : Nat) :
    (s.onTick cfg env time).headHash = 0 ∨ ∃ t, s.onTick cfg env time = { s with time := t } := by
  have hstep (t : Store) (ht : t.headHash = 0 ∨ ∃ time, t = { s with time := time })
      (time : Nat) : (t.onTickPerSlot cfg env time).headHash = 0 ∨
        ∃ time', t.onTickPerSlot cfg env time = { s with time := time' } := by
    rcases t.onTickPerSlot_cases cfg env time with hzero | heq
    · exact .inl hzero
    · rw [heq]
      rcases ht with hzero | ⟨time', rfl⟩
      · exact .inl hzero
      · exact .inr ⟨time, rfl⟩
  have hloop (tickSlot fuel : Nat) (t : Store)
      (ht : t.headHash = 0 ∨ ∃ time, t = { s with time := time }) :
      (tickSlots cfg env tickSlot fuel t).headHash = 0 ∨
        ∃ time, tickSlots cfg env tickSlot fuel t = { s with time := time } := by
    induction fuel generalizing t with
    | zero => exact ht
    | succ fuel ih =>
      rw [tickSlots]
      split
      · exact ih _ (hstep t ht _)
      · exact ht
  exact hstep _ (hloop _ _ s (.inr ⟨s.time, rfl⟩)) time

theorem slashLoop_eq (isSlashable : Nat → Except String Bool) (anySlashed : Bool)
    (indicies : List Nat) (s : Store) :
    ∃ e, (slashLoop isSlashable anySlashed indicies s).2 =
      { s with equivocatingIndicies := e } := by
  induction indicies generalizing anySlashed s with
  | nil => exact ⟨s.equivocatingIndicies, rfl⟩
  | cons index rest ih =>
    rw [slashLoop]
    split
    · obtain ⟨e, he⟩ := ih anySlashed
        { s with equivocatingIndicies := insert index s.equivocatingIndicies }
      exact ⟨e, he⟩
    · cases isSlashable index with
      | error m => exact ⟨_, rfl⟩
      | ok slashable =>
        obtain ⟨e, he⟩ := ih slashable
          { s with equivocatingIndicies := insert index s.equivocatingIndicies }
        exact ⟨e, he⟩

theorem onAttesterSlashing_eq (known : Bool) (verified : Except String (List Nat))
    (isSlashable : Nat → Except String Bool) :
    ∃ e, (s.onAttesterSlashing known verified isSlashable).2 =
      { s with equivocatingIndicies := e } := by
  cases known with
  | true => exact ⟨_, rfl⟩
  | false =>
    cases verified with
    | error m => exact ⟨_, rfl⟩
    | ok indicies => exact slashLoop_eq isSlashable false indicies s

/-- An attestation is left alone before the store is synced; otherwise the head is forgotten and
only votes may change. -/
theorem onAttestation_cases (data : AttestationData) (fromBlock : Bool)
    (verified : Except String (List Nat)) :
    (s.onAttestation cfg data fromBlock verified).2 = s ∨
      ∃ l, (s.onAttestation cfg data fromBlock verified).2 =
        { s.clearHead with latestMessages := l } := by
  rw [onAttestation]
  split
  · exact .inl rfl
  · refine Or.inr ?_
    dsimp only
    split
    · exact ⟨_, rfl⟩
    · split
      · exact ⟨_, rfl⟩
      · split
        · exact ⟨_, rfl⟩
        · cases verified with
          | error e => exact ⟨_, rfl⟩
          | ok indicies => exact s.clearHead.processAttestingIndicies_eq data indicies

/-- A head that is returned is the one that the store remembers afterwards. -/
theorem getHead_cases (heads : List Root) :
    (s.headHash ≠ 0 ∧ s.getHead cfg heads = (.ok (s.headHash, s.headSlot), s)) ∨
      s.headHash = 0 ∧ ∃ weights head slot, (s.getHead cfg heads).2 =
        { s with weights := weights, headHash := head, headSlot := slot } ∧
        ∀ r, (s.getHead cfg heads).1 = .ok r → r = (head, slot) := by
  rw [getHead]
  split
  · rename_i hne
    exact .inl ⟨hne, rfl⟩
  · rename_i heq
    refine .inr ⟨not_not.mp heq, ?_⟩
    cases s.checkpointStates s.justifiedCheckpoint with
    | error e => exact ⟨s.weights, s.headHash, s.headSlot, rfl, fun r hr => by cases hr⟩
    | ok st =>
      dsimp only
      cases s.computeVotes cfg st with
      | error e | panic e => exact ⟨s.weights, _, s.headSlot, rfl, fun r hr => by cases hr⟩
      | ok votes =>
        dsimp only
        split
        · exact ⟨_, _, s.headSlot, rfl, fun r hr => by cases hr⟩
        · exact ⟨_, _, _, rfl, fun r hr => (Result.ok.inj hr).symm⟩

end

end Store

section

variable {cfg : BeaconConfig} {anchor : Anchor} {blocks : List BeaconBlock} {s : Store}

/-- The weights do not depend on the order of the heads. -/
theorem Tree.weigh_order (h : Tree cfg anchor blocks s) (base : Root) (votes : Root → Word)
    {heads heads' : List Root} (hheads : heads.toFinset = heads'.toFinset) :
    weigh s.graph base votes heads = weigh s.graph base votes heads' := by
  have hwalk (heads : List Root) : weigh s.graph base votes heads =
      (heads.foldl (fun p a => ParentWalk.account (walkOf s base a) 0 p)
        (votes, fun _ => 0)).2 := by
    rw [weigh]
    simp only [accountWeights_eq]
    rfl
  have hcounted (heads : List Root) :
      ParentWalk.Counted (parentOf s.graph) base s.graph.height votes _ _ :=
    ParentWalk.counted_foldl h.height_lt votes heads
  funext b
  rw [hwalk, hwalk, (hcounted heads).totals, (hcounted heads').totals, hheads]

theorem Tree.getHead_order (h : Tree cfg anchor blocks s) {heads heads' : List Root}
    (hheads : heads.toFinset = heads'.toFinset) :
    s.getHead cfg heads = s.getHead cfg heads' := by
  simp only [getHead, h.weigh_order _ _ hheads]

end

/-- What is asked of a call: a block is one that the chain vouches for, and the heads are gone
through in some order. -/
def Call.Admissible (cfg : BeaconConfig) (anchor : Anchor) (blocks : List BeaconBlock) (s : Store) :
    Call → Prop
  | .block env b => ForkChoice.Admissible cfg anchor blocks env b
  | .head heads => heads.toFinset = s.headSet
  | _ => True

/-- The blocks taken in after a call. -/
def Call.blocksAfter (cfg : BeaconConfig) (blocks : List BeaconBlock) (s : Store) :
    Call → List BeaconBlock
  | .block env b => if (s.accepts cfg env b).isSome then b :: blocks else blocks
  | _ => blocks

/-- The stores that sequences of calls lead to, each with the mark whether its head is stale. -/
inductive Reached (cfg : BeaconConfig) (anchor : Anchor) : List BeaconBlock → Bool → Store → Prop
  | start {s : Store} (hstart : anchor.Starts s) (hhead : s.headHash = 0) :
      Reached cfg anchor [anchor.block] false s
  | call {blocks : List BeaconBlock} {stale : Bool} {s : Store}
      (h : Reached cfg anchor blocks stale s) (c : Call)
      (hadm : c.Admissible cfg anchor blocks s) :
      Reached cfg anchor (c.blocksAfter cfg blocks s) (s.staleAfter cfg stale c) (s.call cfg c)

section

variable {cfg : BeaconConfig} {anchor : Anchor} {blocks : List BeaconBlock} {s : Store}

theorem Tree.call (h : Tree cfg anchor blocks s) (c : Call)
    (hadm : c.Admissible cfg anchor blocks s) :
    Tree cfg anchor (c.blocksAfter cfg blocks s) (s.call cfg c) := by
  cases c with
  | tick env time => exact h.onTick env time
  | block env block => exact h.onBlock hadm
  | attestation data fromBlock verified =>
    refine h.of_sameTree ?_
    rw [Store.call]
    rcases s.onAttestation_cases cfg data fromBlock verified with heq | ⟨l, heq⟩ <;>
      rw [heq] <;> exact ⟨rfl, rfl, rfl, rfl, rfl, rfl⟩
  | attesting data indicies =>
    exact h.of_sameTree (s.sameTree_processAttestingIndicies data indicies)
  | slashing known verified isSlashable =>
    refine h.of_sameTree ?_
    obtain ⟨e, he⟩ := s.onAttesterSlashing_eq known verified isSlashable
    rw [Store.call, he]
    exact ⟨rfl, rfl, rfl, rfl, rfl, rfl⟩
  | head heads =>
    refine h.of_sameTree ?_
    rw [Store.call]
    rcases s.getHead_cases cfg heads with ⟨-, heq⟩ | ⟨-, weights, head, slot, heq, -⟩ <;>
      rw [heq] <;> exact ⟨rfl, rfl, rfl, rfl, rfl, rfl⟩

theorem Reached.tree {stale : Bool} (h : Reached cfg anchor blocks stale s) :
    Tree cfg anchor blocks s := by
  induction h with
  | start hstart _ => exact Tree.of_starts hstart
  | call _ c hadm ih => exact ih.call c hadm

/-- The head that is remembered is the one that would be found now. -/
def Current (cfg : BeaconConfig) (s : Store) : Prop :=
  s.headHash ≠ 0 → ∀ heads : List Root, heads.toFinset = s.headSet →
    (s.clearHead.getHead cfg heads).1 = .ok (s.headHash, s.headSlot)

theorem Current.of_sameContents {s' : Store} (h : Current cfg s) (hsame : s.SameContents s')
    (hheads : s'.headSet = s.headSet) (hhash : s'.headHash = s.headHash)
    (hslot : s'.headSlot = s.headSlot) : Current cfg s' := by
  intro hne heads hset
  have hclear : s.clearHead.SameContents s'.clearHead := { hsame with }
  rw [hclear.getHead_eq rfl rfl heads, hhash, hslot]
  exact h (hhash ▸ hne) heads (hset.trans hheads)

theorem Current.of_forgotten (hzero : s.headHash = 0) : Current cfg s :=
  fun hne => absurd hzero hne

theorem Reached.current {stale : Bool} (h : Reached cfg anchor blocks stale s)
    (hstale : stale = false) : Current cfg s := by
  induction h with
  | start _ hhead => exact .of_forgotten hhead
  | @call blocks stale s h c hadm ih =>
    rw [Store.staleAfter, Bool.and_eq_false_iff] at hstale
    rcases hstale with hzero | hkept
    · exact .of_forgotten (not_not.mp (of_decide_eq_false hzero))
    · simp only [Bool.or_eq_false_iff, decide_eq_false_iff_not, not_not] at hkept
      obtain ⟨⟨⟨hstale, hfails⟩, hmessages⟩, hequivocating⟩ := hkept
      have hcurrent := ih hstale
      cases c with
      | tick env time =>
        rcases s.onTick_cases cfg env time with hzero | ⟨t, heq⟩
        · exact .of_forgotten hzero
        · rw [Store.call, heq]
          exact hcurrent.of_sameContents ⟨rfl, rfl, rfl, rfl, rfl, rfl, rfl, rfl, rfl⟩ rfl rfl rfl
      | block env block => exact .of_forgotten (s.onBlock_headHash env block)
      | attestation data fromBlock verified =>
        rw [Store.call]
        rcases s.onAttestation_cases cfg data fromBlock verified with heq | ⟨l, heq⟩
        · rwa [heq]
        · rw [heq]
          exact .of_forgotten rfl
      | attesting data indicies =>
        obtain ⟨l, heq⟩ := s.processAttestingIndicies_eq data indicies
        rw [Store.call, heq] at hmessages ⊢
        exact hcurrent.of_sameContents ⟨rfl, rfl, rfl, rfl, rfl, rfl, hmessages, rfl, rfl⟩ rfl rfl rfl
      | slashing known verified isSlashable =>
        obtain ⟨e, heq⟩ := s.onAttesterSlashing_eq known verified isSlashable
        rw [Store.call, heq] at hequivocating ⊢
        exact hcurrent.of_sameContents ⟨rfl, rfl, rfl, rfl, rfl, rfl, rfl, hequivocating, rfl⟩ rfl
          rfl rfl
      | head heads =>
        rw [Store.call]
        rcases s.getHead_cases cfg heads with ⟨-, heq⟩ | ⟨hzero, weights, head, slot, heq, hok⟩
        · rwa [heq]
        · -- the head has just been found, with the heads in the order of this call
          rw [heq]
          intro _ heads' hheads'
          have hsame : s.SameContents (Store.clearHead
              { s with weights := weights, headHash := head, headSlot := slot }) :=
            ⟨rfl, rfl, rfl, rfl, rfl, rfl, rfl, rfl, rfl⟩
          rw [hsame.getHead_eq hzero rfl, h.tree.getHead_order (hheads'.trans hadm.symm)]
          rw [Store.fails] at hfails
          cases hresult : (s.getHead cfg heads).1 with
          | ok r => rw [hok r hresult]
          | error e => rw [hresult] at hfails; cases hfails
          | panic e => rw [hresult] at hfails; cases hfails

/-- In every sequence of calls, a call of `GetHead` that finds no stale head returns what it would
return with no remembered head, whatever the order of the heads. -/
theorem getHead_current (h : Reached cfg anchor blocks false s) {heads heads' : List Root}
    (hheads : heads.toFinset = s.headSet) (hheads' : heads'.toFinset = s.headSet)
    {r : Root × Nat} (hok : (s.getHead cfg heads).1 = .ok r) :
    (s.clearHead.getHead cfg heads').1 = .ok r := by
  rcases s.getHead_cases cfg heads with ⟨hne, heq⟩ | ⟨hzero, -⟩
  · rw [heq] at hok
    rw [← Result.ok.inj hok]
    exact h.current rfl hne heads' hheads'
  · rw [s.sameContents_clearHead.getHead_eq hzero rfl, h.tree.getHead_order (hheads'.trans hheads.symm)]
    exact hok

variable {stale : Bool}

/-- Whatever the calls, the fork graph is never wrong about a block, and of the blocks later than
the last epoch finalized it knows all, each with its children; one without any is among the heads. -/
theorem reached_retains (h : Reached cfg anchor blocks stale s) :
    (∀ root header, s.graph.getHeader root = some header →
      ∃ b ∈ blocks, b.root = root ∧ header = ⟨b.slot, b.parentRoot⟩) ∧
    ∀ b ∈ blocks, Retained cfg anchor s b →
      s.graph.getHeader b.root = some ⟨b.slot, b.parentRoot⟩ ∧
      (∀ c, c ∈ s.children b.root ↔ ∃ block ∈ blocks, block.root = c ∧ block.parentRoot = b.root) ∧
      ((∀ c ∈ blocks, c.parentRoot ≠ b.root) → b.root ∈ s.headSet) := by
  refine ⟨h.tree.header_sound, fun b hb hretained => ⟨h.tree.header_retained b hb hretained,
    fun c => ⟨h.tree.child_sound _ c, ?_⟩, fun hleaf => h.tree.head_retained b hb hleaf hretained⟩⟩
  rintro ⟨block, hblock, rfl, hparent⟩
  exact h.tree.child_retained b hb block hblock hparent hretained

/-- A block that has been taken in before, also one that has been dropped since, changes nothing but
that the head is looked for again. -/
theorem reached_onBlock_again (h : Reached cfg anchor blocks stale s) {b : BeaconBlock}
    (hb : b ∈ blocks) {env : BlockEnv} (hadm : Admissible cfg anchor blocks env b) :
    (s.onBlock cfg env b).2 = s.clearHead := by
  cases haccepts : s.accepts cfg env b with
  | none => exact onBlock_of_not_accepts haccepts
  | some r => exact absurd rfl (h.tree.fresh hadm haccepts b hb)

end

/-- The sample store, after a call of `GetHead`. -/
def sampleCached : Store := (sampleStore.getHead sampleConfig [3, 2]).2

theorem sampleCached_reached :
    ∃ blocks, Reached sampleConfig sampleAnchor blocks false sampleCached := by
  have hstart : Reached sampleConfig sampleAnchor _ false sampleStart :=
    .start ⟨rfl, rfl, rfl, rfl, rfl, rfl⟩ rfl
  have hfirst := hstart.call (.block sampleEnv ⟨2, 1, 1⟩)
    (sampleEnv_admissible (by decide) (by decide) (by decide) (by decide) (by decide) rfl)
  have hsecond := hfirst.call (.block sampleEnv ⟨3, 2, 1⟩)
    (sampleEnv_admissible (by decide) (by decide) (by decide) (by decide) (by decide) rfl)
  have hvotes := hsecond.call (.attesting ⟨2, 2, ⟨0, 1⟩⟩ [0, 1]) trivial
  have hhead := hvotes.call (.head [3, 2]) (by change _ = _; decide)
  generalize hmark : staleAfter _ _ _ (Call.head [3, 2]) = stale at hhead
  obtain rfl : stale = false := by
    rw [← hmark]
    decide
  exact ⟨_, hhead⟩

/-- After votes for the other block, the head that is remembered is returned, though it is no longer
the heaviest. -/
theorem getHead_stale :
    ∃ blocks stale s, Reached sampleConfig sampleAnchor blocks stale s ∧
      [3, 2].toFinset = s.headSet ∧ (s.getHead sampleConfig [3, 2]).1 = .ok (2, 1) ∧
      (s.clearHead.getHead sampleConfig [3, 2]).1 = .ok (3, 2) := by
  obtain ⟨blocks, h⟩ := sampleCached_reached
  have hvotes := h.call (.attesting ⟨2, 3, ⟨1, 1⟩⟩ [0, 1]) trivial
  exact ⟨_, _, _, hvotes, by decide, by decide, by decide⟩

theorem getHead_current_sample : sampleCached.headHash ≠ 0 ∧
    (sampleCached.clearHead.getHead sampleConfig [2, 3]).1 = .ok (2, 1) := by
  obtain ⟨blocks, h⟩ := sampleCached_reached
  have hheads : ([3, 2] : List Root).toFinset = sampleCached.headSet := by decide
  have hheads' : ([2, 3] : List Root).toFinset = sampleCached.headSet := by decide
  exact ⟨by decide, getHead_current h hheads hheads' (by decide)⟩

theorem reached_retains_sample : ∃ blocks : List BeaconBlock, sampleAnchor.block ∈ blocks ∧
    ∀ c ∈ sampleCached.children 1, ∃ b ∈ blocks, b.root = c := by
  obtain ⟨blocks, h⟩ := sampleCached_reached
  have hanchor := h.tree.anchor_mem
  refine ⟨blocks, hanchor, fun c hc => ?_⟩
  obtain ⟨b, hb, hroot, -⟩ := (((reached_retains h).2 _ hanchor (.inl (by decide))).2.1 c).mp hc
  exact ⟨b, hb, hroot⟩

theorem reached_onBlock_again_sample :
    let s := (sampleStart.onBlock sampleConfig sampleEnv ⟨2, 1, 1⟩).2
    (s.onBlock sampleConfig sampleEnv ⟨2, 1, 1⟩).2 = s.clearHead := by
  have hstart : Reached sampleConfig sampleAnchor _ false sampleStart :=
    .start ⟨rfl, rfl, rfl, rfl, rfl, rfl⟩ rfl
  have hfirst := hstart.call (.block sampleEnv ⟨2, 1, 1⟩)
    (sampleEnv_admissible (by decide) (by decide) (by decide) (by decide) (by decide) rfl)
  exact reached_onBlock_again hfirst (by decide)
    (sampleEnv_admissible (by decide) (by decide) (by decide) (by decide) (by decide) rfl)

end ForkChoice

end Erigon

/-
The tree of blocks that the calls build up in the fork choice store, and what of it the store
still has after finalized epochs have been dropped.
-/
import Erigon.ForkChoiceEvents

namespace Erigon

open List Option

namespace ForkChoice

open KeyedTable

namespace Store

open Store

/-- The checkpoints of the state after a block that `OnBlock` takes in. -/
def accepts (s : Store) (cfg : BeaconConfig) (env : BlockEnv) (block : BeaconBlock) :
    Option (Checkpoint × Checkpoint) :=
  if env.hashError.isSome ∨ s.slot cfg < block.slot ∨
      block.slot ≤ computeStartSlotAtEpoch cfg s.finalizedCheckpoint.epoch ∨
      env.rejected.isSome ∨ (s.graph.getHeader block.root).isSome ∨
      block.slot ≤ s.graph.anchorSlot then none
  else
    match env.transition with
    | .error _ => none
    | .ok r => r

theorem onBlock_of_accepts {s : Store} {cfg : BeaconConfig} {env : BlockEnv} {block : BeaconBlock}
    {justified finalized : Checkpoint} (h : s.accepts cfg env block = some (justified, finalized)) :
    s.onBlock cfg env block =
      importBlock s.clearHead cfg env block justified finalized := by
  rw [accepts] at h
  split at h
  · cases h
  · rename_i hguards
    simp only [not_or, not_isSome_iff_eq_none] at hguards
    obtain ⟨hhash, hearly, hlate, hrejected, hheader, hanchor⟩ := hguards
    rw [onBlock, hhash]
    dsimp only
    rw [if_neg (show ¬ s.clearHead.slot cfg < block.slot from hearly), if_neg
      (show ¬ block.slot ≤ computeStartSlotAtEpoch cfg s.clearHead.finalizedCheckpoint.epoch from
        hlate), hrejected]
    dsimp only
    rw [show s.clearHead.graph.getHeader block.root = none from hheader]
    dsimp only
    rw [if_neg (show ¬ block.slot ≤ s.clearHead.graph.anchorSlot from hanchor)]
    cases htransition : env.transition with
    | error e => rw [htransition] at h; cases h
    | ok r => rw [htransition] at h; cases h; rfl

theorem onBlock_of_not_accepts {s : Store} {cfg : BeaconConfig} {env : BlockEnv}
    {block : BeaconBlock} (h : s.accepts cfg env block = none) :
    (s.onBlock cfg env block).2 = s.clearHead := by
  rw [onBlock]
  cases hhash : env.hashError with
  | some e => rfl
  | none =>
    dsimp only
    split
    · rfl
    · rename_i hearly
      split
      · rfl
      · rename_i hlate
        cases hrejected : env.rejected with
        | some e => rfl
        | none =>
          dsimp only
          cases hheader : s.clearHead.graph.getHeader block.root with
          | some header => rfl
          | none =>
            dsimp only
            split
            · rfl
            · rename_i hanchor
              rw [accepts, if_neg] at h
              · cases htransition : env.transition with
                | error e => rfl
                | ok r =>
                  rw [htransition] at h
                  dsimp only at h
                  subst h
                  rfl
              · have hheader' : s.graph.getHeader block.root = none := hheader
                simp only [hhash, hrejected, hheader', isSome_none,
                  Bool.false_eq_true, false_or, not_or]
                exact ⟨hearly, hlate, hanchor⟩

/-- Two stores with the same tree of blocks and the same finalized checkpoints.  They may have
different votes, clocks, justified checkpoints, checkpoint states and heads. -/
structure SameTree (s s' : Store) : Prop where
  graph : s'.graph = s.graph
  childrens : s'.childrens = s.childrens
  headSet : s'.headSet = s.headSet
  highestSeen : s'.highestSeen = s.highestSeen
  finalized : s'.finalizedCheckpoint = s.finalizedCheckpoint
  unrealized : s'.unrealizedFinalizedCheckpoint = s.unrealizedFinalizedCheckpoint

theorem mem_children_updateChildren (s : Store) (parentSlot : Nat) (parent child p c : Root) :
    c ∈ (s.updateChildren parentSlot parent child).children p ↔
      c ∈ s.children p ∨ p = parent ∧ c = child := by
  rw [updateChildren]
  split
  · rename_i hmem
    constructor
    · exact Or.inl
    · rintro (hc | ⟨rfl, rfl⟩)
      · exact hc
      · exact hmem
  · rw [children]
    dsimp only
    rw [load_store]
    by_cases hp : p = parent
    · subst hp
      simp
    · rw [if_neg hp]
      simp [children, hp]

end Store

/-- The anchor from which the store is started. -/
structure Anchor where
  block : BeaconBlock
  /-- The slot and the epoch of its state. -/
  slot : Nat
  epoch : Nat
  slot_ge : block.slot ≤ slot
  slot_lt : slot < 2 ^ 63
  parent_ne : block.root ≠ block.parentRoot

/-- The tree after `NewForkGraphDisk` and `NewForkChoiceStore`. -/
structure Anchor.Starts (anchor : Anchor) (s : Store) : Prop where
  graph : s.graph =
    { anchorSlot := anchor.slot
      anchorRoot := anchor.block.root
      headers := [(anchor.block.root, ⟨anchor.block.slot, anchor.block.parentRoot⟩)]
      currentJustifiedCheckpoints := []
      finalizedCheckpoints := [] }
  childrens : s.childrens = []
  headSet : s.headSet = {anchor.block.root}
  highestSeen : s.highestSeen = anchor.slot
  finalized : s.finalizedCheckpoint = ⟨anchor.epoch, anchor.block.root⟩
  unrealized : s.unrealizedFinalizedCheckpoint = ⟨anchor.epoch, anchor.block.root⟩

/-- What the chain vouches for: a root stands for one block, a block has a known parent of a
smaller slot, and no epoch is finalized that starts after the clock. -/
structure Admissible (cfg : BeaconConfig) (anchor : Anchor) (blocks : List BeaconBlock)
    (env : BlockEnv) (block : BeaconBlock) : Prop where
  hash : ∀ b ∈ blocks, b.root = block.root → b = block
  above : block.root ≠ anchor.block.parentRoot
  slot : block.slot < 2 ^ 63
  parent : ∀ r, env.transition = .ok (some r) →
    ∃ p ∈ blocks, p.root = block.parentRoot ∧ p.slot < block.slot
  finalized : ∀ r, env.transition = .ok (some r) → r.2.epoch * cfg.slotsPerEpoch < 2 ^ 63
  unrealized : ∀ r, env.unrealized = .ok r → r.2.epoch * cfg.slotsPerEpoch < 2 ^ 63

/-- A store that is reached by calls of `OnBlock` and `OnTick`, with the blocks taken in by
them; votes, boosts and all that is not the tree may change in between in any way. -/
inductive Built (cfg : BeaconConfig) (anchor : Anchor) : List BeaconBlock → Store → Prop
  | anchor {s : Store} (hstart : anchor.Starts s) : Built cfg anchor [anchor.block] s
  | onBlock {blocks : List BeaconBlock} {s : Store} (h : Built cfg anchor blocks s)
      (env : BlockEnv) (block : BeaconBlock) (hadm : Admissible cfg anchor blocks env block) :
      Built cfg anchor
        (if (s.accepts cfg env block).isSome then block :: blocks else blocks)
        (s.onBlock cfg env block).2
  | onTick {blocks : List BeaconBlock} {s : Store} (h : Built cfg anchor blocks s) (env : Env)
      (time : Nat) : Built cfg anchor blocks (s.onTick cfg env time)
  | other {blocks : List BeaconBlock} {s s' : Store} (h : Built cfg anchor blocks s)
      (hsame : s.SameTree s') : Built cfg anchor blocks s'

/-- Nothing has been dropped yet, or the block is later than the last epoch finalized. -/
def Retained (cfg : BeaconConfig) (anchor : Anchor) (s : Store) (b : BeaconBlock) : Prop :=
  s.finalizedCheckpoint.epoch = anchor.epoch ∨
    s.finalizedCheckpoint.epoch * cfg.slotsPerEpoch < b.slot

/-- How the tables of the store stand to the blocks taken in. -/
structure Tree (cfg : BeaconConfig) (anchor : Anchor) (blocks : List BeaconBlock) (s : Store) :
    Prop where
  anchorRoot : s.graph.anchorRoot = anchor.block.root
  anchor_mem : anchor.block ∈ blocks
  roots : ∀ b ∈ blocks, ∀ c ∈ blocks, b.root = c.root → b = c
  parents : ∀ c ∈ blocks, c = anchor.block ∨ ∃ b ∈ blocks, b.root = c.parentRoot
  above : ∀ b ∈ blocks, b.root ≠ anchor.block.parentRoot
  slots : ∀ b ∈ blocks, ∀ c ∈ blocks, c.parentRoot = b.root → b.slot < c.slot
  slot_lt : ∀ b ∈ blocks, b.slot < 2 ^ 63
  highest : ∀ b ∈ blocks, b.slot ≤ s.highestSeen
  stored_lt : ∀ e ∈ s.graph.headers, e.2.slot < 2 ^ 63
  header_sound : ∀ root header, s.graph.getHeader root = some header →
    ∃ b ∈ blocks, b.root = root ∧ header = ⟨b.slot, b.parentRoot⟩
  header_retained : ∀ b ∈ blocks, Retained cfg anchor s b →
    s.graph.getHeader b.root = some ⟨b.slot, b.parentRoot⟩
  child_sound : ∀ p c, c ∈ s.children p → ∃ b ∈ blocks, b.root = c ∧ b.parentRoot = p
  child_retained : ∀ b ∈ blocks, ∀ c ∈ blocks, c.parentRoot = b.root → Retained cfg anchor s b →
    c.root ∈ s.children b.root
  entry : ∀ p e, load s.childrens p = some e → ∃ b ∈ blocks, b.root = p ∧ b.slot ≤ e.parentSlot
  head_retained : ∀ b ∈ blocks, (∀ c ∈ blocks, c.parentRoot ≠ b.root) → Retained cfg anchor s b →
    b.root ∈ s.headSet
  epoch_ge : anchor.epoch ≤ s.finalizedCheckpoint.epoch
  finalized_lt : s.finalizedCheckpoint.epoch * cfg.slotsPerEpoch < 2 ^ 63 ∨
    s.finalizedCheckpoint.epoch = anchor.epoch
  unrealized_lt : s.unrealizedFinalizedCheckpoint.epoch * cfg.slotsPerEpoch < 2 ^ 63 ∨
    s.unrealizedFinalizedCheckpoint.epoch = anchor.epoch

section

variable {cfg : BeaconConfig} {anchor : Anchor} {blocks : List BeaconBlock} {s s' : Store}

theorem Tree.of_sameTree (h : Tree cfg anchor blocks s) (hsame : s.SameTree s') :
    Tree cfg anchor blocks s' := by
  obtain ⟨hgraph, hchildrens, hheads, hhighest, hfinalized, hunrealized⟩ := hsame
  cases s
  cases s'
  dsimp only at hgraph hchildrens hheads hhighest hfinalized hunrealized
  subst hgraph hchildrens hheads hhighest hfinalized hunrealized
  exact { h with }

theorem Tree.of_starts (hstart : anchor.Starts s) : Tree cfg anchor [anchor.block] s := by
  have hheader (root : Root) : s.graph.getHeader root =
      if root = anchor.block.root then some ⟨anchor.block.slot, anchor.block.parentRoot⟩
      else none := by
    rw [ForkGraph.getHeader, hstart.graph]
    exact load_store [] anchor.block.root root _
  have hchildren (p : Root) : s.children p = [] := by
    rw [Store.children, hstart.childrens]
    rfl
  have hself : ∀ b ∈ [anchor.block], ∀ c ∈ [anchor.block], c.parentRoot ≠ b.root := by
    simpa using anchor.parent_ne.symm
  have hslot := anchor.slot_ge.trans_lt anchor.slot_lt
  refine ⟨by rw [hstart.graph], mem_singleton_self _, by simp, by simp,
    by simpa using anchor.parent_ne, fun b hb c hc heq => absurd heq (hself b hb c hc),
    by simpa using hslot, by simpa [hstart.highestSeen] using anchor.slot_ge,
    by simpa [hstart.graph] using hslot, ?_, ?_, ?_,
    fun b hb c hc heq => absurd heq (hself b hb c hc), ?_, ?_, by rw [hstart.finalized],
    .inr (by rw [hstart.finalized]), .inr (by rw [hstart.unrealized])⟩
  · intro root header hload
    rw [hheader] at hload
    split at hload
    · rename_i hroot
      exact ⟨anchor.block, mem_singleton_self _, hroot.symm, (some.inj hload).symm⟩
    · cases hload
  · intro b hb _
    obtain rfl := mem_singleton.mp hb
    rw [hheader, if_pos rfl]
  · intro p c hc
    rw [hchildren] at hc
    cases hc
  · intro p e hload
    rw [hstart.childrens] at hload
    cases hload
  · intro b hb _ _
    obtain rfl := mem_singleton.mp hb
    rw [hstart.headSet]
    exact Finset.mem_singleton_self _

variable {env : BlockEnv}

/-- A block that is taken in was not there before. -/
theorem Tree.fresh (h : Tree cfg anchor blocks s) {block : BeaconBlock}
    (hadm : Admissible cfg anchor blocks env block) {r : Checkpoint × Checkpoint}
    (haccepts : s.accepts cfg env block = some r) : ∀ b ∈ blocks, b.root ≠ block.root := by
  intro b hb hroot
  obtain rfl := hadm.hash b hb hroot
  rw [Store.accepts] at haccepts
  split at haccepts
  · cases haccepts
  · rename_i hguards
    simp only [not_or, not_isSome_iff_eq_none] at hguards
    obtain ⟨-, -, hlate, -, hheader, -⟩ := hguards
    have hretained : Retained cfg anchor s b := by
      rcases h.finalized_lt with hlt | heq
      · rw [Store.computeStartSlotAtEpoch, Nat.mod_eq_of_lt (by omega)] at hlate
        exact .inr (by omega)
      · exact .inl heq
    rw [h.header_retained b hb hretained] at hheader
    cases hheader

theorem Store.transition_of_accepts {block : BeaconBlock} {r : Checkpoint × Checkpoint}
    (haccepts : s.accepts cfg env block = some r) :
    env.transition = .ok (some r) := by
  rw [accepts] at haccepts
  split at haccepts
  · cases haccepts
  · cases htransition : env.transition with
    | error e => rw [htransition] at haccepts; cases haccepts
    | ok q => rw [htransition] at haccepts; exact congrArg _ haccepts

theorem Store.load_updateChildren {parentSlot : Nat} {parent child p : Root} {e : Childrens}
    (hload : load (s.updateChildren parentSlot parent child).childrens p = some e) :
    load s.childrens p = some e ∨ p = parent ∧ e.parentSlot = parentSlot := by
  rw [updateChildren] at hload
  split at hload
  · exact .inl hload
  · rw [load_store] at hload
    split at hload
    · rename_i hp
      exact .inr ⟨hp, by rw [← some.inj hload]⟩
    · exact .inl hload

theorem Tree.attach (h : Tree cfg anchor blocks s) {block : BeaconBlock}
    (hadm : Admissible cfg anchor blocks env block) (hfresh : ∀ b ∈ blocks, b.root ≠ block.root)
    (hparent : ∃ p ∈ blocks, p.root = block.parentRoot ∧ p.slot < block.slot)
    (justified finalized : Checkpoint) :
    Tree cfg anchor (block :: blocks) (s.attach env block justified finalized) := by
  obtain ⟨p, hp, hproot, hpslot⟩ := hparent
  have hheader (root : Root) : (s.attach env block justified finalized).graph.getHeader root =
      if root = block.root then some ⟨block.slot, block.parentRoot⟩
      else s.graph.getHeader root := load_store s.graph.headers block.root root _
  have hchildren (q c : Root) : c ∈ (s.attach env block justified finalized).children q ↔
      c ∈ s.children q ∨ q = block.parentRoot ∧ c = block.root :=
    s.mem_children_updateChildren _ _ _ q c
  -- no known block has the new one for a parent
  have hchildless : ∀ c ∈ block :: blocks, c.parentRoot ≠ block.root := by
    intro c hc hcparent
    rcases mem_cons.mp hc with rfl | hc
    · exact hfresh p hp (hproot.trans hcparent)
    · rcases h.parents c hc with rfl | ⟨b, hb, hbroot⟩
      · exact hadm.above hcparent.symm
      · exact hfresh b hb (hbroot.trans hcparent)
  refine ⟨h.anchorRoot, mem_cons_of_mem _ h.anchor_mem, ?_, ?_,
    forall_mem_cons.mpr ⟨hadm.above, h.above⟩, ?_, forall_mem_cons.mpr ⟨hadm.slot, h.slot_lt⟩, ?_,
    forall_mem_cons.mpr ⟨hadm.slot, fun e he => h.stored_lt e (mem_of_mem_filter he)⟩,
    ?_, ?_, ?_, ?_, ?_, ?_, h.epoch_ge, h.finalized_lt, h.unrealized_lt⟩
  · intro b hb c hc hroot
    rcases mem_cons.mp hb with rfl | hb' <;> rcases mem_cons.mp hc with rfl | hc'
    · rfl
    · exact absurd hroot.symm (hfresh c hc')
    · exact absurd hroot (hfresh b hb')
    · exact h.roots b hb' c hc' hroot
  · intro c hc
    rcases mem_cons.mp hc with rfl | hc
    · exact .inr ⟨p, mem_cons_of_mem _ hp, hproot⟩
    · exact (h.parents c hc).imp id fun ⟨b, hb, hroot⟩ => ⟨b, mem_cons_of_mem _ hb, hroot⟩
  · intro b hb c hc hcb
    rcases mem_cons.mp hb with rfl | hb'
    · exact absurd hcb (hchildless c hc)
    · rcases mem_cons.mp hc with rfl | hc'
      · rwa [h.roots b hb' p hp (hcb.symm.trans hproot.symm)]
      · exact h.slots b hb' c hc' hcb
  · intro b hb
    change b.slot ≤ if block.slot > s.highestSeen then block.slot else s.highestSeen
    rcases mem_cons.mp hb with rfl | hb
    · split <;> omega
    · have := h.highest b hb
      split <;> omega
  · intro root header hload
    rw [hheader] at hload
    split at hload
    · rename_i hroot
      exact ⟨block, mem_cons_self, hroot.symm, (some.inj hload).symm⟩
    · obtain ⟨b, hb, hroot, rfl⟩ := h.header_sound root header hload
      exact ⟨b, mem_cons_of_mem _ hb, hroot, rfl⟩
  · intro b hb hr
    rw [hheader]
    rcases mem_cons.mp hb with rfl | hb
    · rw [if_pos rfl]
    · rw [if_neg (hfresh b hb)]
      exact h.header_retained b hb hr
  · intro q c hc
    rcases (hchildren q c).mp hc with hc | ⟨rfl, rfl⟩
    · obtain ⟨b, hb, hroot⟩ := h.child_sound q c hc
      exact ⟨b, mem_cons_of_mem _ hb, hroot⟩
    · exact ⟨block, mem_cons_self, rfl, rfl⟩
  · intro b hb c hc hcb hr
    rw [hchildren]
    rcases mem_cons.mp hb with rfl | hb
    · exact absurd hcb (hchildless c hc)
    · rcases mem_cons.mp hc with rfl | hc
      · exact .inr ⟨hcb.symm, rfl⟩
      · exact .inl (h.child_retained b hb c hc hcb hr)
  · intro q e hload
    rcases Store.load_updateChildren hload with hload | ⟨rfl, hslot⟩
    · obtain ⟨b, hb, hroot, hslot⟩ := h.entry q e hload
      exact ⟨b, mem_cons_of_mem _ hb, hroot, hslot⟩
    · have := hadm.slot
      exact ⟨p, mem_cons_of_mem _ hp, hproot, by omega⟩
  · intro b hb hleaf hr
    change b.root ∈ insert block.root (s.headSet.erase block.parentRoot)
    rw [Finset.mem_insert]
    rcases mem_cons.mp hb with rfl | hb
    · exact .inl rfl
    · refine .inr (Finset.mem_erase.mpr ⟨?_, ?_⟩)
      · exact (hleaf block mem_cons_self).symm
      · exact h.head_retained b hb (fun c hc => hleaf c (mem_cons_of_mem _ hc)) hr

/-- `Prune` only takes out blocks before the finalized epoch: below the fourth epoch the slot
wraps around, beyond all blocks. -/
theorem pruneSlot_le {epoch slots : Nat} (hpos : 0 < slots) (hslots : slots < 2 ^ 60)
    (hlt : epoch * slots < 2 ^ 63)
    (hprune : ((epoch + 2 ^ 64 - 3) % 2 ^ 64 * slots + 2 ^ 64 - 1) % 2 ^ 64 < 2 ^ 63) :
    ((epoch + 2 ^ 64 - 3) % 2 ^ 64 * slots + 2 ^ 64 - 1) % 2 ^ 64 ≤ epoch * slots := by
  have hepoch : epoch < 2 ^ 63 := (Nat.le_mul_of_pos_right epoch hpos).trans_lt hlt
  by_cases hearly : epoch < 3
  · obtain ⟨k, hk, hk3⟩ : ∃ k, epoch + k = 3 ∧ k ≤ 3 := ⟨3 - epoch, by omega, by omega⟩
    have hmod : (epoch + 2 ^ 64 - 3) % 2 ^ 64 = 2 ^ 64 - k := by omega
    have hkslots : k * slots ≤ 3 * slots := Nat.mul_le_mul_right slots hk3
    have hwrap : (2 ^ 64 - k) * slots + 2 ^ 64 - 1 = 2 ^ 64 * slots + (2 ^ 64 - 1 - k * slots) := by
      rw [Nat.sub_mul]
      omega
    rw [hmod, hwrap, Nat.mul_add_mod] at hprune
    omega
  · obtain ⟨k, rfl⟩ : ∃ k, epoch = k + 3 := ⟨epoch - 3, by omega⟩
    have hmod : (k + 3 + 2 ^ 64 - 3) % 2 ^ 64 = k := by omega
    rw [hmod] at hprune ⊢
    rw [Nat.add_mul] at hlt ⊢
    generalize k * slots = q at *
    omega

/-- The entries that a finalized epoch drops belong to blocks before it. -/
theorem Tree.not_isOldParent (h : Tree cfg anchor blocks s) {b : BeaconBlock} (hb : b ∈ blocks)
    {bound : Nat} (hbound : bound < b.slot) : s.isOldParent bound b.root = false := by
  rw [Store.isOldParent]
  cases hload : load s.childrens b.root with
  | none => rfl
  | some e =>
    obtain ⟨b', hb', hroot, hslot⟩ := h.entry b.root e hload
    rw [h.roots b' hb' b hb hroot] at hslot
    exact decide_eq_false (by omega)

theorem ForkGraph.highestStoredBeaconStateSlot_lt {g : ForkGraph} {bound : Nat}
    (hpos : 0 < bound) (hstored : ∀ e ∈ g.headers, e.2.slot < bound)
    (hasBeaconState : Root → Bool) : g.highestStoredBeaconStateSlot hasBeaconState < bound := by
  rw [ForkGraph.highestStoredBeaconStateSlot]
  refine List.foldlRecOn g.headers _ (motive := fun highest => highest < bound) hpos ?_
  intro highest hhighest e he
  split
  · exact hstored e he
  · exact hhighest

/-- A header that `Prune` takes out. -/
theorem Tree.getHeader_prune (h : Tree cfg anchor blocks s) (hasBeaconState : Root → Bool)
    (pruneSlot : Nat) (root : Root) :
    (s.graph.prune hasBeaconState pruneSlot).getHeader root = s.graph.getHeader root ∨
      (s.graph.prune hasBeaconState pruneSlot).getHeader root = none ∧ pruneSlot < 2 ^ 63 ∧
        s.graph.isOld pruneSlot root = true := by
  have hhighest := s.graph.highestStoredBeaconStateSlot_lt (by decide) h.stored_lt hasBeaconState
  rw [ForkGraph.prune]
  split
  · exact .inl rfl
  · have hget : ForkGraph.getHeader { s.graph with
        headers := s.graph.headers.filter fun e => !s.graph.isOld pruneSlot e.1
        currentJustifiedCheckpoints :=
          s.graph.currentJustifiedCheckpoints.filter fun e => !s.graph.isOld pruneSlot e.1
        finalizedCheckpoints :=
          s.graph.finalizedCheckpoints.filter fun e => !s.graph.isOld pruneSlot e.1 } root =
        if (!s.graph.isOld pruneSlot root) = true then s.graph.getHeader root else none :=
      load_filter s.graph.headers (fun root => !s.graph.isOld pruneSlot root) root
    rw [hget]
    split
    · exact .inl rfl
    · rename_i hold
      exact .inr ⟨rfl, by omega, by simpa using hold⟩

variable {finalized : Checkpoint}

theorem Store.children_finalize (s : Store) (env : Env) (p : Root) :
    (s.finalize cfg env finalized).children p =
      if s.isOldParent (finalized.epoch * cfg.slotsPerEpoch % 2 ^ 64) p = true then []
      else s.children p := by
  have hload := load_filter s.childrens
    (fun p => !s.isOldParent (finalized.epoch * cfg.slotsPerEpoch % 2 ^ 64) p) p
  rw [children, finalize, onNewFinalized]
  dsimp only
  rw [hload, children]
  cases s.isOldParent (finalized.epoch * cfg.slotsPerEpoch % 2 ^ 64) p <;> rfl

theorem Tree.finalize (h : Tree cfg anchor blocks s) (env : Env)
    (hnew : s.finalizedCheckpoint.epoch < finalized.epoch)
    (hlt : finalized.epoch * cfg.slotsPerEpoch < 2 ^ 63) :
    Tree cfg anchor blocks (s.finalize cfg env finalized) := by
  have hmod : finalized.epoch * cfg.slotsPerEpoch % 2 ^ 64 =
      finalized.epoch * cfg.slotsPerEpoch := Nat.mod_eq_of_lt (by omega)
  -- a block that is retained now is later than the new epoch, and was retained before
  have hlater (b : BeaconBlock) (hr : Retained cfg anchor (s.finalize cfg env finalized) b) :
      finalized.epoch * cfg.slotsPerEpoch < b.slot := by
    rcases hr with hr | hr
    · exact absurd hr (h.epoch_ge.trans_lt hnew).ne'
    · exact hr
  have hbefore (b : BeaconBlock) (hr : Retained cfg anchor (s.finalize cfg env finalized) b) :
      Retained cfg anchor s b :=
    Or.inr ((Nat.mul_le_mul_right _ hnew.le).trans_lt (hlater b hr))
  have hheader (root : Root) := h.getHeader_prune env.hasBeaconState
    (((finalized.epoch + 2 ^ 64 - 3) % 2 ^ 64 * cfg.slotsPerEpoch + 2 ^ 64 - 1) % 2 ^ 64) root
  refine ⟨?_, h.anchor_mem, h.roots, h.parents, h.above, h.slots, h.slot_lt, h.highest, ?_, ?_, ?_,
    ?_, ?_, ?_, ?_, h.epoch_ge.trans hnew.le, .inl hlt, h.unrealized_lt⟩
  · change (s.graph.prune _ _).anchorRoot = _
    rw [ForkGraph.prune]
    split <;> exact h.anchorRoot
  · change ∀ e ∈ (s.graph.prune _ _).headers, _
    rw [ForkGraph.prune]
    split
    · exact h.stored_lt
    · exact fun e he => h.stored_lt e (mem_of_mem_filter he)
  · intro root header hload
    rcases hheader root with hkept | ⟨hgone, -⟩
    · exact h.header_sound root header (hkept.symm.trans hload)
    · exact absurd (hgone.symm.trans hload) (by simp)
  · intro b hb hr
    have hslot := hlater b hr
    have hstored := h.header_retained b hb (hbefore b hr)
    rcases hheader b.root with hkept | ⟨-, hprune, hold⟩
    · exact hkept.trans hstored
    · have hle := pruneSlot_le cfg.slotsPerEpoch_pos cfg.slotsPerEpoch_lt hlt hprune
      rw [ForkGraph.isOld, hstored] at hold
      have hold : b.slot < _ := (of_decide_eq_true hold).2
      exact absurd (hold.trans_le hle) (by omega)
  · intro p c hc
    rw [Store.children_finalize] at hc
    split at hc
    · cases hc
    · exact h.child_sound p c hc
  · intro b hb c hc hcb hr
    rw [Store.children_finalize, hmod, h.not_isOldParent hb (hlater b hr)]
    exact h.child_retained b hb c hc hcb (hbefore b hr)
  · intro p e hload
    have hkept := load_filter s.childrens
      (fun p => !s.isOldParent (finalized.epoch * cfg.slotsPerEpoch % 2 ^ 64) p) p
    have hload' := hkept.symm.trans hload
    split at hload'
    · exact h.entry p e hload'
    · cases hload'
  · intro b hb hleaf hr
    refine Finset.mem_filter.mpr ⟨h.head_retained b hb hleaf (hbefore b hr), ?_⟩
    rw [hmod, h.not_isOldParent hb (hlater b hr)]
    rfl

theorem Tree.updateCheckpoints (h : Tree cfg anchor blocks s) (env : Env) (justified : Checkpoint)
    (hlt : finalized.epoch * cfg.slotsPerEpoch < 2 ^ 63 ∨ finalized.epoch = anchor.epoch) :
    Tree cfg anchor blocks (s.updateCheckpoints cfg env justified finalized) := by
  rw [Store.updateCheckpoints]
  generalize ht : (if justified.epoch > s.justifiedCheckpoint.epoch then
    { s with justifiedCheckpoint := justified } else s) = t
  have hjustified : Tree cfg anchor blocks t := by
    rw [← ht]
    split
    · exact h.of_sameTree ⟨rfl, rfl, rfl, rfl, rfl, rfl⟩
    · exact h
  split
  · rename_i hnew
    rcases hlt with hlt | heq
    · exact hjustified.finalize env hnew hlt
    · have := hjustified.epoch_ge
      omega
  · exact hjustified

theorem Store.sameTree_clearHead (s : Store) : s.SameTree s.clearHead := ⟨rfl, rfl, rfl, rfl, rfl, rfl⟩

theorem Store.sameTree_boostTimely (s : Store) (cfg : BeaconConfig) (block : BeaconBlock) :
    s.SameTree (s.boostTimely cfg block) := by
  rw [boostTimely]
  split <;> exact ⟨rfl, rfl, rfl, rfl, rfl, rfl⟩

theorem Store.processAttestingIndicies_eq (s : Store) (data : AttestationData)
    (indicies : List Nat) :
    ∃ l, s.processAttestingIndicies data indicies = { s with latestMessages := l } := by
  rw [processAttestingIndicies]
  refine List.foldlRecOn indicies _ (motive := fun t => ∃ l, t = { s with latestMessages := l })
    ⟨s.latestMessages, rfl⟩ ?_
  rintro t ⟨l, rfl⟩ index _
  rw [takeVote]
  split
  · exact ⟨l, rfl⟩
  · dsimp only
    split <;> split <;> exact ⟨_, rfl⟩

theorem Store.sameTree_processAttestingIndicies (s : Store) (data : AttestationData)
    (indicies : List Nat) : s.SameTree (s.processAttestingIndicies data indicies) := by
  obtain ⟨l, hl⟩ := s.processAttestingIndicies_eq data indicies
  rw [hl]
  exact ⟨rfl, rfl, rfl, rfl, rfl, rfl⟩

section

variable (h : Tree cfg anchor blocks s)

include h

theorem Tree.updateUnrealizedCheckpoints (justified : Checkpoint)
    (hlt : finalized.epoch * cfg.slotsPerEpoch < 2 ^ 63) :
    Tree cfg anchor blocks (s.updateUnrealizedCheckpoints justified finalized) := by
  rw [Store.updateUnrealizedCheckpoints]
  generalize ht : (if justified.epoch > s.unrealizedJustifiedCheckpoint.epoch then
    { s with unrealizedJustifiedCheckpoint := justified } else s) = t
  have hjustified : Tree cfg anchor blocks t := by
    rw [← ht]
    split
    · exact h.of_sameTree ⟨rfl, rfl, rfl, rfl, rfl, rfl⟩
    · exact h
  split
  · exact { hjustified with unrealized_lt := .inl hlt }
  · exact hjustified

theorem Tree.settle (block : BeaconBlock) (justified : Checkpoint)
    (hunrealized : ∀ r, env.unrealized = .ok r → r.2.epoch * cfg.slotsPerEpoch < 2 ^ 63)
    (hfinalized : finalized.epoch * cfg.slotsPerEpoch < 2 ^ 63) :
    Tree cfg anchor blocks (s.settle cfg env block justified finalized).2 := by
  rw [Store.settle]
  cases hresult : env.unrealized with
  | error e => exact h
  | ok u =>
    have hmarked := h.updateUnrealizedCheckpoints u.1 (hunrealized u hresult)
    dsimp only
    cases env.proposersError with
    | some e => exact hmarked
    | none =>
      dsimp only
      split
      · exact hmarked.updateCheckpoints env.toEnv justified (.inl hfinalized)
      · exact hmarked

theorem Tree.onBlock {block : BeaconBlock}
    (hadm : Admissible cfg anchor blocks env block) :
    Tree cfg anchor (if (s.accepts cfg env block).isSome then block :: blocks else blocks)
      (s.onBlock cfg env block).2 := by
  cases haccepts : s.accepts cfg env block with
  | none =>
    rw [Store.onBlock_of_not_accepts haccepts]
    exact h.of_sameTree s.sameTree_clearHead
  | some r =>
    obtain ⟨justified, finalized⟩ := r
    have htransition := Store.transition_of_accepts haccepts
    have hfinalized := hadm.finalized _ htransition
    have hattached := (h.of_sameTree s.sameTree_clearHead).attach hadm (h.fresh hadm haccepts)
      (hadm.parent _ htransition) justified finalized
    have hchecked := (hattached.of_sameTree (Store.sameTree_boostTimely _ cfg block)).updateCheckpoints
      env.toEnv justified (.inl hfinalized)
    rw [Store.onBlock_of_accepts haccepts]
    exact hchecked.settle block justified hadm.unrealized hfinalized

theorem Tree.onTickPerSlot (env : Env) (time : Nat) :
    Tree cfg anchor blocks (s.onTickPerSlot cfg env time) := by
  rw [Store.onTickPerSlot]
  dsimp only
  split
  · exact h.of_sameTree ⟨rfl, rfl, rfl, rfl, rfl, rfl⟩
  · have hreset : Tree cfg anchor blocks
        { Store.clearHead { s with time := time } with proposerBoostRoot := 0 } :=
      h.of_sameTree ⟨rfl, rfl, rfl, rfl, rfl, rfl⟩
    split
    · exact hreset.updateCheckpoints env _ hreset.unrealized_lt
    · exact hreset

theorem Tree.onTick (env : Env) (time : Nat) : Tree cfg anchor blocks (s.onTick cfg env time) := by
  rw [Store.onTick]
  have hloop (tickSlot fuel : Nat) (t : Store) (ht : Tree cfg anchor blocks t) :
      Tree cfg anchor blocks (Store.tickSlots cfg env tickSlot fuel t) := by
    induction fuel generalizing t with
    | zero => exact ht
    | succ fuel ih =>
      rw [Store.tickSlots]
      split
      · exact ih _ (ht.onTickPerSlot env _)
      · exact ht
  exact (hloop _ _ s h).onTickPerSlot env time

end

theorem Built.tree (h : Built cfg anchor blocks s) : Tree cfg anchor blocks s := by
  induction h with
  | anchor hstart => exact Tree.of_starts hstart
  | onBlock _ env block hadm ih => exact ih.onBlock hadm
  | onTick _ env time ih => exact ih.onTick env time
  | other _ hsame ih => exact ih.of_sameTree hsame

end

end ForkChoice

end Erigon

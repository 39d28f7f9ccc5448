/-
The head that the fork choice finds: every block below the justified root weighs what the votes
for it and for the blocks below it weigh together, and the head is reached by steps to the
heaviest viable child.
-/
import Erigon.ForkChoiceTree

namespace Erigon

open List ParentWalk Result

namespace ForkChoice

open Store

open KeyedTable Relation

variable (blocks : List BeaconBlock)

/-- The links of the tree of blocks, from a block to its children. -/
def Child (p c : Root) : Prop :=
  ∃ b ∈ blocks, b.root = c ∧ b.parentRoot = p

/-- The second block is the first or one of its descendants. -/
def Below : Root → Root → Prop := ReflTransGen (Child blocks)

def Leaf (b : Root) : Prop := ∀ c, ¬ Child blocks b c

/-- A leaf whose checkpoints agree with the store is at the block or below it. -/
def Viable (s : Store) (cfg : BeaconConfig) (blocks : List BeaconBlock) (b : Root) : Prop :=
  ∃ leaf, Below blocks b leaf ∧ Leaf blocks leaf ∧ s.agrees cfg leaf = true

open Classical in
/-- What the votes for a block and its descendants come to. -/
noncomputable def subtreeVotes (votes : Root → Nat) (b : Root) : Nat :=
  ∑ x ∈ (blocks.map BeaconBlock.root).toFinset.filter (Below blocks b), votes x

/-- The viable child of the greatest weight; among equals, that of the greatest root. -/
def Greatest (s : Store) (cfg : BeaconConfig) (blocks : List BeaconBlock) (weight : Root → Nat)
    (p c : Root) : Prop :=
  Child blocks p c ∧ Viable s cfg blocks c ∧
    ∀ d, Child blocks p d → Viable s cfg blocks d →
      weight d < weight c ∨ weight d = weight c ∧ d ≤ c

/-- The block that is reached by such steps, where none is left. -/
def HeadFrom (s : Store) (cfg : BeaconConfig) (blocks : List BeaconBlock) (weight : Root → Nat)
    (base head : Root) : Prop :=
  ReflTransGen (Greatest s cfg blocks weight) base head ∧
    ∀ c, Child blocks head c → ¬ Viable s cfg blocks c

namespace Store

/-- The vote of a validator that counts: its block and its balance. -/
def voteOf (s : Store) (st : CheckpointState) (validatorIndex : Nat) : Option (Root × Word) :=
  match s.latestMessages.get validatorIndex with
  | none => none
  | some message =>
    if message ≠ default ∧ bit st.actives validatorIndex = true ∧
        bit st.slasheds validatorIndex = false ∧ s.isUnequivocating validatorIndex = false then
      some (message.root, st.balances.getD validatorIndex 0)
    else none

/-- What a vote gives to a block. -/
def share (root : Root) : Option (Root × Word) → Nat
  | none => 0
  | some (voted, balance) => if voted = root then balance.toNat else 0

/-- The votes for a block: the balances of its voters, and the boost. -/
def votesFor (s : Store) (cfg : BeaconConfig) (st : CheckpointState) (root : Root) : Nat :=
  ((List.range s.latestMessages.latestMessagesCount).map fun i => share root (s.voteOf st i)).sum +
    if s.proposerBoostRoot ≠ 0 ∧ s.proposerBoostRoot = root then (boost cfg st).toNat else 0

/-- Every validator with a vote is among those of the checkpoint state. -/
def Registered (s : Store) (st : CheckpointState) : Prop :=
  ∀ i message, s.latestMessages.get i = some message → message ≠ default →
    i / 8 < st.actives.length

theorem countVote_eq {s : Store} {st : CheckpointState} (hreg : s.Registered st)
    (votes : Root → Word) (i : Nat) :
    s.countVote st votes i =
      .ok (fun root => votes root + BitVec.ofNat 64 (share root (s.voteOf st i))) := by
  rw [countVote, voteOf]
  cases hget : s.latestMessages.get i with
  | none => simp [share]
  | some message =>
    by_cases hmessage : message = default
    · simp [hmessage, share]
    · have hi := hreg i message hget hmessage
      have hi' : i / 8 < st.slasheds.length := by rw [st.slasheds_length, ← st.actives_length]; exact hi
      simp only [Option.getD_some, if_neg hmessage, readFromBitset_eq hi, readFromBitset_eq hi',
        ok_bind]
      cases hactive : bit st.actives i with
      | false => simp [share]
      | true =>
        cases hslashed : bit st.slasheds i with
        | true => simp [share]
        | false =>
          cases hequiv : s.isUnequivocating i with
          | true => simp [share]
          | false =>
            have hlt := st.active_lt i hactive
            simp only [getD_eq_getElem?_getD, getElem?_eq_getElem hlt]
            simp only [Option.isNone_some, Bool.not_true, Bool.false_eq_true, if_false,
              ne_eq, hmessage, not_false_eq_true, and_self, if_true, Option.getD_some]
            refine congrArg ok (funext fun root => ?_)
            rw [share]
            by_cases hroot : message.root = root
            · subst hroot
              simp
            · simp [hroot, Function.update_of_ne (Ne.symm hroot)]

theorem computeVotes_eq {s : Store} {st : CheckpointState} (cfg : BeaconConfig)
    (hreg : s.Registered st) :
    s.computeVotes cfg st = .ok fun root => BitVec.ofNat 64 (s.votesFor cfg st root) := by
  have hloop (l : List Nat) (votes : Root → Word) : l.foldlM (s.countVote st) votes =
      .ok fun root => votes root +
        BitVec.ofNat 64 (l.map fun i => share root (s.voteOf st i)).sum := by
    induction l generalizing votes with
    | nil => simp [pure]
    | cons i l ih =>
      rw [foldlM_cons, countVote_eq hreg, ok_bind, ih]
      refine congrArg ok (funext fun root => ?_)
      rw [map_cons, sum_cons, BitVec.ofNat_add, add_assoc]
  rw [computeVotes, hloop, ok_bind]
  refine congrArg ok (funext fun root => ?_)
  rw [votesFor, addBoost, BitVec.ofNat_add]
  by_cases hboost : s.proposerBoostRoot = 0
  · rw [if_neg (not_not_intro hboost), if_neg fun h => h.1 hboost]
    simp
  · rw [if_pos hboost]
    by_cases hroot : s.proposerBoostRoot = root
    · subst hroot
      rw [if_pos ⟨hboost, rfl⟩]
      simp
    · rw [if_neg fun h => hroot h.2, Function.update_of_ne (Ne.symm hroot)]
      simp

/-- What `accountWeights` does on the nodes of a walk. -/
theorem accountWeights_eq (g : ForkGraph) (justifiedRoot : Root) (fuel : Nat) (curr : Root)
    (accumulated : Word) (p : (Root → Word) × (Root → Word)) :
    accountWeights g justifiedRoot fuel curr accumulated p =
      account
        (path (fun root => (g.getHeader root).map BeaconBlockHeader.parentRoot)
          justifiedRoot fuel curr) accumulated p := by
  induction fuel generalizing curr accumulated p with
  | zero => rfl
  | succ fuel ih =>
    obtain ⟨votes, weights⟩ := p
    rw [accountWeights, path]
    split
    · rfl
    · rw [account]
      cases hheader : g.getHeader curr with
      | none => rfl
      | some header => exact ih header.parentRoot _ _

/-- The order of the children by weight, and by root among equals. -/
def Outweighs (weights : Root → Word) (c d : Root) : Prop :=
  (weights d).toNat < (weights c).toNat ∨ (weights d).toNat = (weights c).toNat ∧ d ≤ c

theorem Outweighs.trans {weights : Root → Word} {b c d : Root} (hbc : Outweighs weights b c)
    (hcd : Outweighs weights c d) : Outweighs weights b d := by
  unfold Outweighs at *
  bv_omega

/-- Among children in order, a later one is taken if it weighs no less. -/
theorem foldl_outweighs (weights : Root → Word) (best : Root) (rest : List Root)
    (hsorted : (best :: rest).Pairwise (· ≤ ·)) :
    let last := rest.foldl
      (fun best child => if weights child ≥ weights best then child else best) best
    last ∈ best :: rest ∧ ∀ d ∈ best :: rest, Outweighs weights last d := by
  induction rest generalizing best with
  | nil => simp [Outweighs]
  | cons c rest ih =>
    have hle : best ≤ c := (pairwise_cons.mp hsorted).1 c mem_cons_self
    set next := if weights c ≥ weights best then c else best with hnext
    have hstep : [next].Sublist [best, c] ∧
        Outweighs weights next best ∧ Outweighs weights next c := by
      rw [hnext]
      unfold Outweighs
      split
      · exact ⟨by simp, by bv_omega, by simp⟩
      · exact ⟨by simp, by simp, by bv_omega⟩
    obtain ⟨hsub, hbest, hc⟩ := hstep
    have hsub : (next :: rest).Sublist (best :: c :: rest) := hsub.append (.refl rest)
    obtain ⟨hmem, hall⟩ := ih next (hsorted.sublist hsub)
    have hlast := hall next mem_cons_self
    rw [forall_mem_cons] at hall
    exact ⟨hsub.subset hmem, forall_mem_cons.mpr ⟨hlast.trans hbest,
      forall_mem_cons.mpr ⟨hlast.trans hc, hall.2⟩⟩⟩

theorem bestChild_eq_none {weights : Root → Word} {children : List Root}
    (h : bestChild weights children = none) : children = [] := by
  rw [bestChild] at h
  have hperm := perm_insertionSort (· ≤ ·) children
  split at h
  · rename_i hsort
    rw [hsort] at hperm
    exact hperm.symm.eq_nil
  · cases h

theorem bestChild_spec {weights : Root → Word} {children : List Root} {c : Root}
    (h : bestChild weights children = some c) :
    c ∈ children ∧ ∀ d ∈ children, Outweighs weights c d := by
  rw [bestChild] at h
  have hperm := perm_insertionSort (· ≤ ·) children
  have hsorted := pairwise_insertionSort (· ≤ ·) children
  split at h
  · cases h
  · rename_i first rest hsort
    rw [hsort] at hperm hsorted
    obtain ⟨hmem, hall⟩ := foldl_outweighs weights first rest hsorted
    rw [Option.some.inj h] at hmem hall
    exact ⟨hperm.mem_iff.mp hmem, fun d hd => hall d (hperm.mem_iff.mpr hd)⟩

end Store

section

variable {cfg : BeaconConfig} {anchor : Anchor} {blocks : List BeaconBlock} {s : Store}

variable {b : BeaconBlock}

theorem Retained.mono {c : BeaconBlock} (h : Retained cfg anchor s b) (hslot : b.slot ≤ c.slot) :
    Retained cfg anchor s c :=
  h.imp id fun h => h.trans_le hslot

/-- The parent of a block, as the headers have it. -/
def parentOf (g : ForkGraph) (root : Root) : Option Root :=
  (g.getHeader root).map BeaconBlockHeader.parentRoot

theorem Tree.child_of_parentOf (h : Tree cfg anchor blocks s) {a p : Root}
    (hparent : parentOf s.graph a = some p) : Child blocks p a := by
  obtain ⟨header, hheader, rfl⟩ := Option.map_eq_some_iff.mp hparent
  obtain ⟨b, hb, hroot, rfl⟩ := h.header_sound a header hheader
  exact ⟨b, hb, hroot, rfl⟩

theorem Tree.height_lt (h : Tree cfg anchor blocks s) (a p : Root)
    (hparent : parentOf s.graph a = some p) : s.graph.height p < s.graph.height a := by
  obtain ⟨header, hheader, rfl⟩ := Option.map_eq_some_iff.mp hparent
  obtain ⟨b, hb, hroot, rfl⟩ := h.header_sound a header hheader
  rw [ForkGraph.height, ForkGraph.height, hheader]
  dsimp only
  cases hp : s.graph.getHeader b.parentRoot with
  | none => exact Nat.succ_pos _
  | some header =>
    obtain ⟨c, hc, hcroot, rfl⟩ := h.header_sound _ header hp
    exact Nat.succ_lt_succ (h.slots c hc b hb hcroot.symm)

variable {x : Root}

section

variable (h : Tree cfg anchor blocks s)

include h

/-- The block of a root that is not before the base. -/
theorem Tree.block_of_below {base : BeaconBlock}
    (hbase : base ∈ blocks) (hx : Below blocks base.root x) :
    ∃ b ∈ blocks, b.root = x ∧ base.slot ≤ b.slot ∧ (x ≠ base.root → base.slot < b.slot) := by
  induction hx with
  | refl => exact ⟨base, hbase, rfl, le_rfl, fun h => absurd rfl h⟩
  | tail _ hchild ih =>
    obtain ⟨b, hb, rfl, hslot, -⟩ := ih
    obtain ⟨c, hc, rfl, hparent⟩ := hchild
    have hlt := h.slots b hb c hc hparent
    exact ⟨c, hc, rfl, by omega, fun _ => by omega⟩

theorem Tree.below_ne {base : BeaconBlock} (hbase : base ∈ blocks)
    (hb : b ∈ blocks) (hlt : base.slot < b.slot) (hx : Below blocks b.root x) :
    x ≠ base.root := by
  rintro rfl
  obtain ⟨c, hc, hroot, hslot, -⟩ := h.block_of_below hb hx
  rw [h.roots c hc base hbase hroot] at hslot
  omega

/-- A block that is retained has its parent, and its children are those of the tree. -/
theorem Tree.parentOf_retained (hb : b ∈ blocks)
    (hr : Retained cfg anchor s b) : parentOf s.graph b.root = some b.parentRoot := by
  rw [parentOf, h.header_retained b hb hr]
  rfl

theorem Tree.mem_children (hb : b ∈ blocks)
    (hr : Retained cfg anchor s b) (c : Root) : c ∈ s.children b.root ↔ Child blocks b.root c := by
  constructor
  · exact h.child_sound b.root c
  · rintro ⟨c, hc, rfl, hparent⟩
    exact h.child_retained b hb c hc hparent hr

/-- Some leaf is at every block or below it. -/
theorem Tree.exists_leaf (hb : b ∈ blocks) :
    ∃ leaf ∈ blocks, Below blocks b.root leaf.root ∧ Leaf blocks leaf.root := by
  induction hn : s.highestSeen - b.slot using Nat.strong_induction_on generalizing b with
  | _ n ih =>
    by_cases hleaf : Leaf blocks b.root
    · exact ⟨b, hb, ReflTransGen.refl, hleaf⟩
    · rw [Leaf, not_forall_not] at hleaf
      obtain ⟨_, c, hc, rfl, hparent⟩ := hleaf
      have hlt := h.slots b hb c hc hparent
      have hle := h.highest c hc
      obtain ⟨leaf, hmem, hbelow, hleaf⟩ := ih _ (by omega) hc rfl
      exact ⟨leaf, hmem, ReflTransGen.head ⟨c, hc, rfl, hparent⟩ hbelow, hleaf⟩

end

/-- The walk from a block towards the base. -/
abbrev walkOf (s : Store) (base : Root) : Root → List Root :=
  ParentWalk.walk (parentOf s.graph) base s.graph.height

theorem Tree.below_of_mem_walk (h : Tree cfg anchor blocks s) {base b : Root}
    (hb : b ∈ walkOf s base x) : Below blocks b x := by
  induction x using walk_induction base h.height_lt with
  | hstop => rw [walkOf, walk_stop] at hb; cases hb
  | hroot x hx hparent =>
    rw [walkOf, walk_root base hx hparent, mem_singleton] at hb
    exact hb ▸ ReflTransGen.refl
  | hstep x p hx hparent ih =>
    rw [walkOf, walk_step base h.height_lt hx hparent, mem_cons] at hb
    rcases hb with rfl | hb
    · exact ReflTransGen.refl
    · exact (ih hb).tail (h.child_of_parentOf hparent)

section

variable (h : Tree cfg anchor blocks s) {base : BeaconBlock} (hbase : base ∈ blocks)
  (hr : Retained cfg anchor s base) (hb : b ∈ blocks) (hlt : base.slot < b.slot)

include h hbase hr hb hlt

theorem Tree.mem_walk_of_below (hx : Below blocks b.root x) :
    b.root ∈ walkOf s base.root x := by
  induction hx with
  | refl =>
    have hne := h.below_ne hbase hb hlt ReflTransGen.refl
    rw [walkOf, walk_step base.root h.height_lt hne
      (h.parentOf_retained hb (hr.mono hlt.le))]
    exact mem_cons_self
  | tail hy hchild ih =>
    have hne := h.below_ne hbase hb hlt (hy.tail hchild)
    obtain ⟨y, hymem, rfl, hyslot, -⟩ := h.block_of_below hb hy
    obtain ⟨c, hc, rfl, hparent⟩ := hchild
    have hcslot := h.slots y hymem c hc hparent
    have hcparent := h.parentOf_retained hc (hr.mono (by omega))
    rw [hparent] at hcparent
    rw [walkOf, walk_step base.root h.height_lt hne hcparent]
    exact mem_cons_of_mem _ ih

/-- The walks from the heads meet every block below the base. -/
theorem Tree.mem_met :
    b.root ∈ met (parentOf s.graph) base.root s.graph.height s.headSet := by
  obtain ⟨leaf, hmem, hbelow, hleaf⟩ := h.exists_leaf hb
  obtain ⟨leaf', hmem', hroot, hslot, -⟩ := h.block_of_below hb hbelow
  obtain rfl := h.roots leaf' hmem' leaf hmem hroot
  rw [ParentWalk.mem_met]
  refine ⟨leaf'.root, h.head_retained leaf' hmem ?_ (hr.mono (by omega)),
    h.mem_walk_of_below hbase hr hb hlt hbelow⟩
  exact fun c hc hparent => hleaf c.root ⟨c, hc, rfl, hparent⟩

open Classical in
theorem Tree.toward_eq :
    toward (parentOf s.graph) base.root s.graph.height
        (met (parentOf s.graph) base.root s.graph.height s.headSet) b.root =
      (blocks.map BeaconBlock.root).toFinset.filter (Below blocks b.root) := by
  ext x
  rw [mem_toward, Finset.mem_filter, mem_toFinset, mem_map]
  constructor
  · rintro ⟨-, hwalk⟩
    have hbelow := h.below_of_mem_walk hwalk
    obtain ⟨c, hc, hroot, -⟩ := h.block_of_below hb hbelow
    exact ⟨⟨c, hc, hroot⟩, hbelow⟩
  · rintro ⟨-, hbelow⟩
    refine ⟨?_, h.mem_walk_of_below hbase hr hb hlt hbelow⟩
    obtain ⟨c, hc, rfl, hslot, -⟩ := h.block_of_below hb hbelow
    exact h.mem_met hbase hr hc (by omega)

/-- Whatever the order of the heads. -/
theorem Tree.weigh_eq (votes : Root → Nat) {heads : List Root}
    (hheads : heads.toFinset = s.headSet)
    (hfit : subtreeVotes blocks votes b.root < 2 ^ 64) :
    (weigh s.graph base.root (fun root => BitVec.ofNat 64 (votes root)) heads b.root).toNat =
      subtreeVotes blocks votes b.root := by
  have hcounted : Counted (parentOf s.graph) base.root s.graph.height _ _ _ :=
    counted_foldl h.height_lt (fun root => BitVec.ofNat 64 (votes root)) heads
  have hsum (t : Finset Root) :
      ∑ x ∈ t, BitVec.ofNat 64 (votes x) = BitVec.ofNat 64 (∑ x ∈ t, votes x) := by
    simp only [← BitVec.natCast_eq_ofNat, Nat.cast_sum]
  have hwalk : weigh s.graph base.root (fun root => BitVec.ofNat 64 (votes root)) heads =
      (heads.foldl (fun p a => account (walkOf s base.root a) 0 p)
        (fun root => BitVec.ofNat 64 (votes root), fun _ => 0)).2 := by
    rw [weigh]
    simp only [accountWeights_eq]
    rfl
  rw [hwalk, hcounted.totals, hheads, h.toward_eq hbase hr hb hlt, hsum, BitVec.toNat_ofNat]
  exact Nat.mod_eq_of_lt hfit

end

theorem below_iff {b : Root} :
    Below blocks b x ↔ x = b ∨ ∃ c, Child blocks b c ∧ Below blocks c x := by
  rw [Below, ReflTransGen.cases_head_iff]
  exact or_congr eq_comm Iff.rfl

theorem viable_iff {b : Root} (hleaf : ¬ Leaf blocks b) :
    Viable s cfg blocks b ↔ ∃ c, Child blocks b c ∧ Viable s cfg blocks c := by
  constructor
  · rintro ⟨leaf, hbelow, hend, hagrees⟩
    rcases below_iff.mp hbelow with rfl | ⟨c, hchild, hbelow⟩
    · exact absurd hend hleaf
    · exact ⟨c, hchild, leaf, hbelow, hend, hagrees⟩
  · rintro ⟨c, hchild, leaf, hbelow, hend, hagrees⟩
    exact ⟨leaf, ReflTransGen.head hchild hbelow, hend, hagrees⟩

theorem viable_leaf {b : Root} (hleaf : Leaf blocks b) :
    Viable s cfg blocks b ↔ s.agrees cfg b = true := by
  constructor
  · rintro ⟨leaf, hbelow, -, hagrees⟩
    rcases below_iff.mp hbelow with rfl | ⟨c, hchild, -⟩
    · exact hagrees
    · exact absurd hchild (hleaf c)
  · exact fun hagrees => ⟨b, ReflTransGen.refl, hleaf, hagrees⟩

/-- What `getFilterBlockTree` finds at a block. -/
def Filtered (s : Store) (cfg : BeaconConfig) (blocks : List BeaconBlock) (b : Root)
    (found : List Root) (r : Bool × List Root) : Prop :=
  (r.1 = true ↔ Viable s cfg blocks b) ∧
    ∀ x, x ∈ r.2 ↔ x ∈ found ∨ Below blocks b x ∧ Viable s cfg blocks x

/-- The loop of `getFilterBlockTree` over the children. -/
theorem filtered_foldl {visit : Root → List Root → Bool × List Root} {children : List Root}
    (hvisit : ∀ c ∈ children, ∀ found, Filtered s cfg blocks c found (visit c found))
    (r : Bool × List Root) :
    let q := children.foldl (fun r child => (r.1 || (visit child r.2).1, (visit child r.2).2)) r
    (q.1 = true ↔ r.1 = true ∨ ∃ c ∈ children, Viable s cfg blocks c) ∧
      ∀ x, x ∈ q.2 ↔ x ∈ r.2 ∨ ∃ c ∈ children, Below blocks c x ∧ Viable s cfg blocks x := by
  induction children generalizing r with
  | nil => simp
  | cons c children ih =>
    obtain ⟨hviable, hfound⟩ := hvisit c mem_cons_self r.2
    obtain ⟨hany, hmem⟩ := ih (fun d hd => hvisit d (mem_cons_of_mem c hd))
      (r.1 || (visit c r.2).1, (visit c r.2).2)
    rw [foldl_cons]
    constructor
    · rw [hany, Bool.or_eq_true, hviable, or_assoc]
      simp
    · intro x
      rw [hmem, hfound, or_assoc]
      simp

/-- What is found at the children, and the block itself if it is viable. -/
theorem filtered_children {b : Root} {found : List Root} {r : Bool × List Root}
    (hviable : r.1 = true ↔ Viable s cfg blocks b)
    (hfound : ∀ x, x ∈ r.2 ↔
      x ∈ found ∨ ∃ c, Child blocks b c ∧ Below blocks c x ∧ Viable s cfg blocks x) :
    Filtered s cfg blocks b found (if r.1 then (true, b :: r.2) else r) := by
  have hbelow (x : Root) : Below blocks b x ∧ Viable s cfg blocks x ↔ x = b ∧ r.1 = true ∨
      ∃ c, Child blocks b c ∧ Below blocks c x ∧ Viable s cfg blocks x := by
    rw [below_iff, or_and_right]
    simp only [← exists_and_right, and_assoc]
    exact or_congr (and_congr_right fun hx => hx ▸ hviable.symm) Iff.rfl
  split
  · rename_i hr
    refine ⟨iff_of_true rfl (hviable.mp hr), fun x => ?_⟩
    rw [mem_cons, hfound, hbelow, and_iff_left hr, or_left_comm]
  · rename_i hr
    refine ⟨hviable, fun x => ?_⟩
    rw [hfound, hbelow, and_iff_right_of_imp (fun hr' => absurd hr' hr), or_iff_right hr]

theorem Tree.getFilterBlockTree_spec (h : Tree cfg anchor blocks s) (hb : b ∈ blocks)
    (hr : Retained cfg anchor s b) {fuel : Nat} (hfuel : s.highestSeen < fuel + b.slot)
    (found : List Root) :
    Filtered s cfg blocks b.root found (s.getFilterBlockTree cfg fuel b.root found) := by
  induction fuel generalizing b found with
  | zero =>
    have := h.highest b hb
    omega
  | succ fuel ih =>
    rw [getFilterBlockTree, h.header_retained b hb hr]
    dsimp only
    have hchildren := h.mem_children hb hr
    split
    · rename_i hne
      have hleaf : ¬ Leaf blocks b.root := by
        intro hleaf
        obtain ⟨c, hc⟩ := exists_mem_of_ne_nil _ hne
        exact hleaf c ((hchildren c).mp hc)
      -- every child is later, and its part of the tree needs one level less
      have hvisit : ∀ c ∈ s.children b.root, ∀ found,
          Filtered s cfg blocks c found (s.getFilterBlockTree cfg fuel c found) := by
        intro c hc found
        obtain ⟨child, hmem, rfl, hparent⟩ := (hchildren c).mp hc
        have hlt := h.slots b hb child hmem hparent
        exact ih hmem (hr.mono hlt.le) (by omega) found
      obtain ⟨hany, hfound⟩ := filtered_foldl hvisit (false, found)
      simp only [hchildren, Bool.false_eq_true, false_or] at hany hfound
      exact filtered_children (hany.trans (viable_iff hleaf).symm) hfound
    · rename_i hnil
      have hleaf : Leaf blocks b.root := by
        intro c hc
        rw [← hchildren, not_not.mp hnil] at hc
        cases hc
      have hfound := filtered_children (r := (s.agrees cfg b.root, found))
        (viable_leaf hleaf).symm fun x => (or_iff_left fun ⟨c, hc, _⟩ => hleaf c hc).symm
      cases hagrees : s.agrees cfg b.root <;> rw [hagrees] at hfound <;> exact hfound

/-- The descent along the heaviest viable children. -/
theorem Tree.descend_spec (h : Tree cfg anchor blocks s) {viable : List Root}
    {weights : Root → Word} {weight : Root → Nat} {base : BeaconBlock} (hbase : base ∈ blocks)
    (hr : Retained cfg anchor s base)
    (hviable : ∀ x, Below blocks base.root x → (x ∈ viable ↔ Viable s cfg blocks x))
    (hweight : ∀ x, Below blocks base.root x → x ≠ base.root → (weights x).toNat = weight x)
    (hb : b ∈ blocks) (hbelow : Below blocks base.root b.root) {fuel : Nat}
    (hfuel : s.highestSeen < fuel + b.slot) :
    HeadFrom s cfg blocks weight b.root (s.descend viable weights fuel b.root) := by
  induction fuel generalizing b with
  | zero =>
    have := h.highest b hb
    omega
  | succ fuel ih =>
    obtain ⟨b', hb', hroot, hslot, -⟩ := h.block_of_below hbase hbelow
    obtain rfl := h.roots b' hb' b hb hroot
    have hchildren := h.mem_children hb (hr.mono hslot)
    -- the children that are left in are the viable ones
    have hmem (c : Root) : c ∈ (s.children b'.root).filter (fun c => decide (c ∈ viable)) ↔
        Child blocks b'.root c ∧ Viable s cfg blocks c := by
      rw [mem_filter, hchildren, decide_eq_true_iff]
      exact and_congr_right fun hchild => hviable c (hbelow.tail hchild)
    have hne (c : Root) (hchild : Child blocks b'.root c) : c ≠ base.root := by
      obtain ⟨c, hc, rfl, hparent⟩ := hchild
      exact h.below_ne hbase hc (by have := h.slots b' hb c hc hparent; omega) ReflTransGen.refl
    rw [descend]
    split
    · rename_i hnone
      have hnil := bestChild_eq_none hnone
      refine ⟨ReflTransGen.refl, fun c hchild hv => ?_⟩
      have := (hmem c).mpr ⟨hchild, hv⟩
      rw [hnil] at this
      cases this
    · rename_i c hsome
      obtain ⟨hc, hbest⟩ := bestChild_spec hsome
      obtain ⟨hchild, hv⟩ := (hmem c).mp hc
      have hgreatest : Greatest s cfg blocks weight b'.root c := by
        refine ⟨hchild, hv, fun d hdchild hdv => ?_⟩
        rw [← hweight d (hbelow.tail hdchild) (hne d hdchild),
          ← hweight c (hbelow.tail hchild) (hne c hchild)]
        exact hbest d ((hmem d).mpr ⟨hdchild, hdv⟩)
      have hcbelow := hbelow.tail hchild
      obtain ⟨child, hcmem, rfl, hparent⟩ := hchild
      have hlt := h.slots b' hb child hcmem hparent
      obtain ⟨hpath, hend⟩ := ih hcmem hcbelow (by omega)
      exact ⟨ReflTransGen.head hgreatest hpath, hend⟩

theorem HeadFrom.below {weight : Root → Nat} {base head : Root}
    (hhead : HeadFrom s cfg blocks weight base head) : Below blocks base head :=
  hhead.1.lift id fun _ _ hstep => hstep.1

/-- `GetHead` without a cached head, in a store that the calls have built up: it weighs every
block below the justified root by the votes for its descendants and itself, and returns the block
that is reached from the justified root by steps to the heaviest viable child.  The voters are to
be validators of the justified state, and the justified block is not to be before the last
finalized epoch for which blocks have been dropped. -/
theorem getHead_heaviest (hbuilt : Built cfg anchor blocks s) (hcache : s.headHash = 0)
    {justified : BeaconBlock} (hmem : justified ∈ blocks)
    (hroot : s.justifiedCheckpoint.root = justified.root) (hr : Retained cfg anchor s justified)
    {st : CheckpointState} (hst : s.checkpointStates s.justifiedCheckpoint = .ok st)
    (hreg : s.Registered st) {heads : List Root} (hheads : heads.toFinset = s.headSet)
    (hfit : ∀ b, Below blocks justified.root b → b ≠ justified.root →
      subtreeVotes blocks (s.votesFor cfg st) b < 2 ^ 64) :
    ∃ head header s', s.getHead cfg heads = (.ok (head, header.slot), s') ∧
      s.graph.getHeader head = some header ∧
      HeadFrom s cfg blocks (subtreeVotes blocks (s.votesFor cfg st)) justified.root head ∧
      ∀ b, Below blocks justified.root b → b ≠ justified.root →
        (s'.weights b).toNat = subtreeVotes blocks (s.votesFor cfg st) b := by
  have h := hbuilt.tree
  have hhighest := h.highest justified hmem
  set weights := Store.weigh s.graph justified.root
    (fun root => BitVec.ofNat 64 (s.votesFor cfg st root)) heads with hweights
  have hweight : ∀ b, Below blocks justified.root b → b ≠ justified.root →
      (weights b).toNat = subtreeVotes blocks (s.votesFor cfg st) b := by
    intro b hbelow hne
    obtain ⟨b, hb, rfl, -, hlt⟩ := h.block_of_below hmem hbelow
    exact h.weigh_eq hmem hr hb (hlt hne) _ hheads (hfit b.root hbelow hne)
  have hfiltered : Filtered s cfg blocks justified.root []
      (s.getFilterBlockTree cfg (s.highestSeen + 1) justified.root []) :=
    h.getFilterBlockTree_spec hmem hr (by omega) []
  have hviable : ∀ x, Below blocks justified.root x →
      (x ∈ s.getFilteredBlockTree cfg justified.root ↔ Viable s cfg blocks x) := by
    intro x hx
    rw [Store.getFilteredBlockTree, hfiltered.2]
    simp [hx]
  have hhead : HeadFrom s cfg blocks (subtreeVotes blocks (s.votesFor cfg st)) justified.root
      (s.descend (s.getFilteredBlockTree cfg justified.root) weights (s.highestSeen + 1)
        justified.root) :=
    h.descend_spec hmem hr hviable hweight hmem ReflTransGen.refl (by omega)
  obtain ⟨head, hheadmem, hheadroot, hheadslot, -⟩ := h.block_of_below hmem hhead.below
  have hheader := h.header_retained head hheadmem (hr.mono hheadslot)
  rw [hheadroot] at hheader
  refine ⟨_, _,
    { s with
      weights := weights
      headHash := s.descend (s.getFilteredBlockTree cfg justified.root) weights
        (s.highestSeen + 1) justified.root
      headSlot := head.slot }, ?_, hheader, hhead, hweight⟩
  rw [Store.getHead, if_neg (not_not_intro hcache), hst]
  dsimp only
  rw [Store.computeVotes_eq cfg hreg, hroot]
  dsimp only
  rw [← hweights, hheader]

open Classical in
theorem subtreeVotes_le (votes : Root → Nat) (b : Root) :
    subtreeVotes blocks votes b ≤ ∑ x ∈ (blocks.map BeaconBlock.root).toFinset, votes x :=
  Finset.sum_le_sum_of_subset (Finset.filter_subset _ _)

end

def sampleConfig : BeaconConfig :=
  ⟨32, 12, 3, 0, 0, 40, by decide, by decide, by decide⟩

def sampleAnchor : Anchor :=
  ⟨⟨1, 0, 0⟩, 0, 0, by decide, by decide, by decide⟩

def sampleState : CheckpointState where
  balances := [32, 32]
  actives := [3]
  slasheds := [0]
  activeBalance := 64
  actives_length := rfl
  slasheds_length := rfl
  active_lt := by
    intro i hi
    rcases Nat.lt_or_ge i 8 with hlt | hge
    · interval_cases i <;> first | decide | exact absurd hi (by decide)
    · have hbyte : ([3] : List UInt8).getD (i / 8) 0 = 0 := by
        obtain ⟨k, hk⟩ : ∃ k, i / 8 = k + 1 := ⟨i / 8 - 1, by omega⟩
        rw [hk]
        rfl
      rw [bit, hbyte] at hi
      simp at hi

/-- A store in its third slot, with nothing but the anchor. -/
def sampleStart : Store where
  graph := ⟨0, 1, [(1, ⟨0, 0⟩)], [], []⟩
  childrens := []
  headSet := {1}
  highestSeen := 0
  justifiedCheckpoint := ⟨0, 1⟩
  finalizedCheckpoint := ⟨0, 1⟩
  unrealizedJustifiedCheckpoint := ⟨0, 1⟩
  unrealizedFinalizedCheckpoint := ⟨0, 1⟩
  proposerBoostRoot := 0
  latestMessages := .newLatestMessagesStore 2
  equivocatingIndicies := ∅
  time := 24
  genesisTime := 0
  synced := true
  checkpointStates := fun _ => .ok sampleState
  headHash := 0
  headSlot := 0
  weights := fun _ => 0

def sampleEnv : BlockEnv where
  hasBeaconState := fun _ => false
  checkpointStates := fun _ => .ok sampleState
  hashError := none
  rejected := none
  transition := .ok (some (⟨0, 1⟩, ⟨0, 1⟩))
  unrealized := .ok (⟨0, 1⟩, ⟨0, 1⟩)
  proposersError := none

theorem sampleStart_built : Built sampleConfig sampleAnchor [sampleAnchor.block] sampleStart :=
  .anchor ⟨rfl, rfl, rfl, rfl, rfl, rfl⟩

/-- Two blocks on the anchor, and two votes. -/
def sampleStore : Store :=
  let s := (sampleStart.onBlock sampleConfig sampleEnv ⟨2, 1, 1⟩).2
  let s := (s.onBlock sampleConfig sampleEnv ⟨3, 2, 1⟩).2
  s.processAttestingIndicies ⟨2, 2, ⟨0, 1⟩⟩ [0, 1]

theorem sampleEnv_admissible {blocks : List BeaconBlock} {block : BeaconBlock}
    (hanchor : sampleAnchor.block ∈ blocks) (hhash : ∀ b ∈ blocks, b.root = block.root → b = block)
    (habove : block.root ≠ 0) (hpos : 0 < block.slot) (hslot : block.slot < 2 ^ 63)
    (hparent : block.parentRoot = 1) :
    Admissible sampleConfig sampleAnchor blocks sampleEnv block where
  hash := hhash
  above := habove
  slot := hslot
  parent := fun _ _ => ⟨sampleAnchor.block, hanchor, hparent.symm, hpos⟩
  finalized := by
    rintro r hr
    cases hr
    decide
  unrealized := by
    rintro r hr
    cases hr
    decide

theorem sampleStore_built :
    Built sampleConfig sampleAnchor [⟨3, 2, 1⟩, ⟨2, 1, 1⟩, sampleAnchor.block] sampleStore := by
  have hfirst := sampleStart_built.onBlock sampleEnv ⟨2, 1, 1⟩
    (sampleEnv_admissible (by decide) (by decide) (by decide) (by decide) (by decide) rfl)
  rw [if_pos (by decide)] at hfirst
  have hsecond := hfirst.onBlock sampleEnv ⟨3, 2, 1⟩
    (sampleEnv_admissible (by decide) (by decide) (by decide) (by decide) (by decide) rfl)
  rw [if_pos (by decide)] at hsecond
  exact hsecond.other (sameTree_processAttestingIndicies _ _ _)

theorem getHead_heaviest_sample : sampleStore.headHash = 0 ∧
    ∃ head header s', sampleStore.getHead sampleConfig [3, 2] = (.ok (head, header.slot), s') ∧
      sampleStore.graph.getHeader head = some header ∧
      HeadFrom sampleStore sampleConfig [⟨3, 2, 1⟩, ⟨2, 1, 1⟩, sampleAnchor.block]
        (subtreeVotes [⟨3, 2, 1⟩, ⟨2, 1, 1⟩, sampleAnchor.block]
          (sampleStore.votesFor sampleConfig sampleState)) 1 head ∧
      ∀ b, Below [⟨3, 2, 1⟩, ⟨2, 1, 1⟩, sampleAnchor.block] 1 b → b ≠ 1 →
        (s'.weights b).toNat = subtreeVotes [⟨3, 2, 1⟩, ⟨2, 1, 1⟩, sampleAnchor.block]
          (sampleStore.votesFor sampleConfig sampleState) b := by
  have hmem : sampleAnchor.block ∈
      ([⟨3, 2, 1⟩, ⟨2, 1, 1⟩, sampleAnchor.block] : List BeaconBlock) := by decide
  refine ⟨by decide, getHead_heaviest sampleStore_built (by decide) hmem rfl (.inl rfl) rfl ?_
    (by decide) ?_⟩
  · intro i message hget _
    rcases Nat.lt_or_ge i 8 with hlt | hge
    · exact Nat.div_lt_of_lt_mul hlt
    · have hlen : sampleStore.latestMessages.latestMessages.length = 2 := by decide
      rw [LatestMessagesStore.get, getElem?_eq_none (by omega)] at hget
      cases hget
  · intro b _ _
    exact (subtreeVotes_le _ b).trans_lt (by decide)

/-- A vote of a validator that the justified state does not have, even for a known block, is read
beyond the bits of that state. -/
theorem getHead_panics_for_unregistered :
    ∃ s : Store, Built sampleConfig sampleAnchor [sampleAnchor.block] s ∧ s.headHash = 0 ∧
      s.justifiedCheckpoint.root = sampleAnchor.block.root ∧
      Retained sampleConfig sampleAnchor s sampleAnchor.block ∧
      s.checkpointStates s.justifiedCheckpoint = .ok sampleState ∧ s.headSet = {1} ∧
      (s.getHead sampleConfig [1]).1 = .panic (outOfRange 1 1) := by
  refine ⟨sampleStart.processAttestingIndicies ⟨0, 1, ⟨0, 1⟩⟩ [8], ?_, ?_⟩
  · exact sampleStart_built.other (Store.sameTree_processAttestingIndicies _ _ _)
  · exact ⟨by decide, by decide, .inl (by decide), rfl, by decide, by decide⟩

end ForkChoice

end Erigon

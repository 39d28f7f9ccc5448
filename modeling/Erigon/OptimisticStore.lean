/-
The store of blocks whose execution payloads are not validated yet.  Validity spreads to
the ancestors of a block and invalidity to its descendants, along links between the nodes of
the store.  The nodes are kept under the state roots of the blocks, and asked for under
their block roots.
-/
import Erigon.DeletingSearch

namespace Erigon

open List

namespace OptimisticStore

open KeyedTable Relation

abbrev Hash := BitVec 256

/-- `Eth1Block`; the fields beside the number only count for the test for the zero value. -/
structure Eth1Block where
  blockNumber : Nat
  rest : List UInt8
deriving DecidableEq

/-- `BeaconBlock`, with the root of its hash tree. -/
structure BeaconBlock where
  root : Hash
  stateRoot : Hash
  parentRoot : Hash
  executionPayload : Option Eth1Block
deriving DecidableEq

/-- The payload, if it is not missing and not the zero value. -/
def BeaconBlock.payload (block : BeaconBlock) : Option Eth1Block :=
  block.executionPayload.filter fun payload => decide (payload ≠ ⟨0, []⟩)

structure OpNode where
  execBlockNum : Nat
  parent : Hash
  children : List Hash
deriving DecidableEq

/-- `optimisticRoots`, in the order in which the nodes were stored. -/
abbrev Store := List (Hash × OpNode)

/-- Note a child in the node of its parent, if that is there. -/
def linkChild (parentRoot root : Hash) (e : Hash × OpNode) : Hash × OpNode :=
  if e.1 = parentRoot then (e.1, { e.2 with children := e.2.children ++ [root] }) else e

def addOptimisticCandidate (s : Store) (block : BeaconBlock) : Store :=
  match block.payload with
  | none => s
  | some payload =>
    let root := block.stateRoot
    match load s root with
    | some _ => s
    | none =>
      let blockNode : OpNode := ⟨payload.blockNumber, block.parentRoot, []⟩
      (s ++ [(root, blockNode)]).map (linkChild block.parentRoot root)

/-- The loop of `ValidateBlock` from a block to its ancestors. -/
def validateLoop : Nat → Hash → Store → Store
  | 0, _, s => s
  | fuel + 1, curRoot, s =>
    match load s curRoot with
    | some node => validateLoop fuel node.parent (delete s curRoot)
    | none => s

def validateBlock (s : Store) (block : BeaconBlock) : Store :=
  match block.payload with
  | none => s
  | some payload => (validateLoop (s.length + 1) block.stateRoot s).filter fun e =>
    decide (¬ e.2.execBlockNum < payload.blockNumber)

/-- `InvalidateBlock`, which sweeps along the children. -/
def invalidateBlock (s : Store) (block : BeaconBlock) : Store :=
  match block.payload with
  | none => s
  | some _ =>
    sweep OpNode.children (work OpNode.children [block.stateRoot] s) [block.stateRoot] s

def isOptimistic (s : Store) (root : Hash) : Bool := decide (root ≠ 0) && (load s root).isSome

/-! ### Runs -/

inductive Call
  | addOptimisticCandidate (block : BeaconBlock)
  | validateBlock (block : BeaconBlock)
  | invalidateBlock (block : BeaconBlock)

namespace Call

def block : Call → BeaconBlock
  | .addOptimisticCandidate block => block
  | .validateBlock block => block
  | .invalidateBlock block => block

def apply (s : Store) : Call → Store
  | .addOptimisticCandidate block => OptimisticStore.addOptimisticCandidate s block
  | .validateBlock block => OptimisticStore.validateBlock s block
  | .invalidateBlock block => OptimisticStore.invalidateBlock s block

end Call

/-- The store after calls, of which the last one stands first. -/
def run : List Call → Store
  | [] => []
  | call :: calls => call.apply (run calls)

/-! ### Trees of blocks -/

def BeaconBlock.number (block : BeaconBlock) : Nat := (block.payload.map (·.blockNumber)).getD 0

/-- Blocks with payloads and without collisions among their roots, linked by parent roots. -/
structure Tree (T : Set BeaconBlock) : Prop where
  payload : ∀ b ∈ T, b.payload.isSome = true
  root_inj : ∀ a ∈ T, ∀ b ∈ T, a.root = b.root → a = b
  stateRoot_inj : ∀ a ∈ T, ∀ b ∈ T, a.stateRoot = b.root → a = b
  acyclic : ∃ rank : BeaconBlock → Nat, ∀ a ∈ T, ∀ b ∈ T, b.parentRoot = a.root → rank a < rank b

variable (T : Set BeaconBlock)

def Parent (a b : BeaconBlock) : Prop :=
  a ∈ T ∧ b ∈ T ∧ b.parentRoot = a.root

/-- A block is an ancestor of another one, or the same. -/
def Leads (a b : BeaconBlock) : Prop := ReflTransGen (Parent T) a b

/-- A call after which a block is no longer optimistic. -/
def Call.Hits (b : BeaconBlock) : Call → Prop
  | .addOptimisticCandidate _ => False
  | .validateBlock block => Leads T b block ∨ b.number < block.number
  | .invalidateBlock block => Leads T block b

/-- A block was added, and since then no call has hit it. -/
def Optimistic (calls : List Call) (b : BeaconBlock) : Prop :=
  ∃ since before, calls = since ++ .addOptimisticCandidate b :: before ∧
    ∀ call ∈ since, ¬ call.Hits T b

/-- The store tells the optimistic blocks by their roots. -/
def Exact (calls : List Call) : Prop :=
  ∀ b ∈ T, isOptimistic (run calls) b.root = true ↔ Optimistic T calls b

/-! ### Optimistic blocks -/

variable {b a : BeaconBlock}

theorem optimistic_cons {T : Set BeaconBlock} {call : Call} {calls : List Call} :
    Optimistic T (call :: calls) b ↔
      call = .addOptimisticCandidate b ∨ Optimistic T calls b ∧ ¬ call.Hits T b := by
  constructor
  · rintro ⟨since, before, hcalls, hsince⟩
    cases since with
    | nil =>
      obtain ⟨rfl, -⟩ := List.cons.inj hcalls
      exact .inl rfl
    | cons c since =>
      obtain ⟨rfl, htail⟩ := List.cons.inj hcalls
      exact .inr ⟨⟨since, before, htail, fun c hc => hsince c (mem_cons_of_mem _ hc)⟩,
        hsince _ mem_cons_self⟩
  · rintro (rfl | ⟨⟨since, before, rfl, hsince⟩, hhits⟩)
    · exact ⟨[], calls, rfl, by simp⟩
    · exact ⟨call :: since, before, rfl, by simpa using ⟨hhits, hsince⟩⟩

open Classical in
/-- The optimistic blocks in the order in which they were added. -/
noncomputable def optimistic (T : Set BeaconBlock) : List Call → List BeaconBlock
  | [] => []
  | .addOptimisticCandidate b :: calls =>
    if b ∈ optimistic T calls then optimistic T calls else optimistic T calls ++ [b]
  | .validateBlock b :: calls =>
    (optimistic T calls).filter fun a => decide (¬ Call.Hits T a (.validateBlock b))
  | .invalidateBlock b :: calls =>
    (optimistic T calls).filter fun a => decide (¬ Call.Hits T a (.invalidateBlock b))

theorem mem_optimistic {T : Set BeaconBlock} {calls : List Call} :
    b ∈ optimistic T calls ↔ Optimistic T calls b := by
  induction calls with
  | nil => simp [optimistic, Optimistic]
  | cons call calls ih =>
    rw [optimistic_cons, ← ih]
    cases call with
    | addOptimisticCandidate a =>
      rw [optimistic]
      split
      · rename_i ha
        constructor
        · exact fun hb => .inr ⟨hb, id⟩
        · rintro (heq | ⟨hb, -⟩)
          · cases heq
            exact ha
          · exact hb
      · rw [mem_append, mem_singleton, or_comm]
        simp [Call.Hits, eq_comm]
    | validateBlock a => simp [optimistic]
    | invalidateBlock a => simp [optimistic]

/-! ### Stores that mirror the optimistic blocks -/

/-- A block comes before another one. -/
def Before (o : List BeaconBlock) (a b : BeaconBlock) : Prop := [a, b].Sublist o

theorem before_concat {o : List BeaconBlock} {c : BeaconBlock} :
    Before (o ++ [b]) a c ↔ Before o a c ∨ a ∈ o ∧ c = b := by
  constructor
  · intro h
    obtain ⟨front, back, heq, hfront, hback⟩ := sublist_append_iff.mp h
    rcases sublist_singleton.mp hback with rfl | rfl
    · rw [append_nil] at heq
      subst heq
      exact .inl hfront
    · obtain ⟨hinit, hlast⟩ := append_inj' (show [a] ++ [c] = front ++ [b] from heq) rfl
      subst hinit
      exact .inr ⟨singleton_sublist.mp hfront, singleton_inj.mp hlast⟩
  · rintro (h | ⟨ha, rfl⟩)
    · exact List.Sublist.trans h (sublist_append_left o [b])
    · exact (singleton_sublist.mpr ha).append (List.Sublist.refl [c])

theorem Before.mem {o : List BeaconBlock} (h : Before o a b) : a ∈ o ∧ b ∈ o :=
  ⟨h.subset mem_cons_self, h.subset (mem_cons_of_mem _ mem_cons_self)⟩

/-- The node of a block. -/
def entry (children : BeaconBlock → List Hash) (b : BeaconBlock) : Hash × OpNode :=
  (b.root, ⟨b.number, b.parentRoot, children b⟩)

/-- The store has a node for every optimistic block, with the children that were added after
it. -/
structure Mirrors (T : Set BeaconBlock) (o : List BeaconBlock) (children : BeaconBlock → List Hash)
    (s : Store) : Prop where
  store : s = o.map (entry children)
  subset : ∀ b ∈ o, b ∈ T
  nodup : o.Nodup
  roots : ∀ b ∈ o, b.stateRoot = b.root ∧ b.root ≠ 0
  linked : ∀ p ∈ o, ∀ c ∈ o, Before o p c → c.parentRoot = p.root → c.root ∈ children p
  links : ∀ p ∈ o, ∀ c ∈ T, c.root ∈ children p → c.parentRoot = p.root
  before : ∀ p ∈ o, ∀ c ∈ o, c.root ∈ children p → Before o p c

section Mirrored

variable {T : Set BeaconBlock} {o : List BeaconBlock} {children : BeaconBlock → List Hash} {s : Store}

variable {b : BeaconBlock}

section

variable (h : Mirrors T o children s)

include h

theorem Mirrors.load_eq (hT : Tree T) (hb : b ∈ T) :
    load s b.root = if b ∈ o then some (entry children b).2 else none := by
  cases hload : load s b.root with
  | none =>
    rw [if_neg]
    intro hbo
    refine load_eq_none.mp hload (entry children b) ?_ rfl
    rw [h.store]
    exact mem_map_of_mem hbo
  | some node =>
    have hmem := mem_of_load hload
    rw [h.store] at hmem
    obtain ⟨a, ha, heq⟩ := mem_map.mp hmem
    obtain ⟨hroot, rfl⟩ := Prod.mk.inj heq
    obtain rfl := hT.root_inj a (h.subset a ha) b hb hroot
    rw [if_pos ha]
    rfl

theorem Mirrors.isOptimistic_iff (hT : Tree T) (hb : b ∈ T) :
    isOptimistic s b.root = true ↔ b ∈ o := by
  rw [isOptimistic, h.load_eq hT hb, Bool.and_eq_true, decide_eq_true_iff]
  split
  · rename_i hbo
    exact ⟨fun _ => hbo, fun _ => ⟨(h.roots b hbo).2, rfl⟩⟩
  · rename_i hbo
    exact ⟨fun hfalse => absurd hfalse.2 Bool.false_ne_true, fun hmem => absurd hmem hbo⟩

theorem Mirrors.filter_store {keep : Hash × OpNode → Bool}
    {keep' : BeaconBlock → Bool} (heq : ∀ a ∈ o, keep (entry children a) = keep' a) :
    s.filter keep = (o.filter keep').map (entry children) := by
  rw [h.store, filter_map]
  exact congrArg (List.map (entry children)) (filter_congr heq)

/-- Nodes may be deleted. -/
theorem Mirrors.filter (keep : BeaconBlock → Bool) :
    Mirrors T (o.filter keep) children ((o.filter keep).map (entry children)) where
  store := rfl
  subset b hb := h.subset b (mem_of_mem_filter hb)
  nodup := h.nodup.filter keep
  roots b hb := h.roots b (mem_of_mem_filter hb)
  linked p hp c hc hbefore :=
    h.linked p (mem_of_mem_filter hp) c (mem_of_mem_filter hc)
      (List.Sublist.trans hbefore filter_sublist)
  links p hp := h.links p (mem_of_mem_filter hp)
  before p hp c hc hchild := by
    have hbefore := (h.before p (mem_of_mem_filter hp) c (mem_of_mem_filter hc)
      hchild).filter keep
    rwa [filter_cons_of_pos (mem_filter.mp hp).2,
      filter_cons_of_pos (mem_filter.mp hc).2] at hbefore

end

/-- A relation between optimistic blocks. -/
def Among (o : List BeaconBlock) (R : BeaconBlock → BeaconBlock → Prop) (a b : BeaconBlock) : Prop :=
  a ∈ o ∧ b ∈ o ∧ R a b

/-- Sweeping from a block leads along links between optimistic blocks. -/
theorem Mirrors.swept_iff (h : Mirrors T o children s) (hT : Tree T) {next : OpNode → List Hash}
    {R : BeaconBlock → BeaconBlock → Prop}
    (hnext : ∀ a ∈ o, ∀ b ∈ o, b.root ∈ next (entry children a).2 ↔ R a b) {a : BeaconBlock}
    (hb : b ∈ T) (ha : a ∈ o) :
    Swept next s [b.stateRoot] a.root ↔ ReflTransGen (Among o R) b a := by
  -- Keys with a node are the roots of optimistic blocks.
  have hkey : ∀ k node, load s k = some node → ∃ x ∈ o, x.root = k ∧ (entry children x).2 = node := by
    intro k node hload
    have hmem := mem_of_load hload
    rw [h.store] at hmem
    obtain ⟨x, hx, heq⟩ := mem_map.mp hmem
    obtain ⟨hroot, hnode⟩ := Prod.mk.inj heq
    exact ⟨x, hx, hroot, hnode⟩
  have hlink : ∀ x ∈ o, ∀ y ∈ o, Link next s x.root y.root ↔ R x y := by
    intro x hx y hy
    rw [Link, h.load_eq hT (h.subset x hx), if_pos hx, ← hnext x hx y hy]
    simp
  have hpath : ∀ k, ReflTransGen (Link next s) k a.root →
      ∃ x ∈ o, x.root = k ∧ ReflTransGen (Among o R) x a := by
    intro k hk
    induction hk using ReflTransGen.head_induction_on with
    | refl => exact ⟨a, ha, rfl, .refl⟩
    | head hstep _ ih =>
      obtain ⟨y, hy, rfl, hrest⟩ := ih
      obtain ⟨node, hload, hin⟩ := hstep
      obtain ⟨x, hx, rfl, rfl⟩ := hkey _ _ hload
      exact ⟨x, hx, rfl, .head ⟨hx, hy, (hnext x hx y hy).mp hin⟩ hrest⟩
  constructor
  · rintro ⟨k, hk, hswept⟩
    obtain rfl := mem_singleton.mp hk
    obtain ⟨x, hx, hroot, hrest⟩ := hpath _ hswept
    obtain rfl := hT.stateRoot_inj b hb x (h.subset x hx) hroot.symm
    exact hrest
  · intro hrest
    have hbo : b ∈ o := by
      rcases ReflTransGen.cases_head hrest with rfl | ⟨c, hstep, -⟩
      · exact ha
      · exact hstep.1
    refine ⟨b.stateRoot, mem_singleton_self _, ?_⟩
    rw [(h.roots b hbo).1]
    exact hrest.lift BeaconBlock.root fun x y hxy => (hlink x hxy.1 y hxy.2.1).mpr hxy.2.2

theorem validateLoop_eq_sweep (fuel : Nat) (curRoot : Hash) (s : Store) :
    validateLoop fuel curRoot s = sweep (fun node => [node.parent]) fuel [curRoot] s := by
  induction fuel generalizing curRoot s with
  | zero => rfl
  | succ fuel ih =>
    rw [validateLoop, sweep]
    cases load s curRoot with
    | none => cases fuel <;> rfl
    | some node => exact ih node.parent (delete s curRoot)

/-- From a block to its parent. -/
def Up (a b : BeaconBlock) : Prop := a.parentRoot = b.root

/-- From a block to a child that was added after it. -/
def Down (o : List BeaconBlock) (a b : BeaconBlock) : Prop := Before o a b ∧ b.parentRoot = a.root

theorem number_eq {payload : Eth1Block} (h : b.payload = some payload) :
    b.number = payload.blockNumber := by
  rw [BeaconBlock.number, h]
  rfl

open Classical in
theorem Mirrors.validateBlock_eq (h : Mirrors T o children s) (hT : Tree T) (hb : b ∈ T) :
    validateBlock s b = (o.filter fun a => decide (¬ (ReflTransGen (Among o Up) b a ∨
      a.number < b.number))).map (entry children) := by
  obtain ⟨payload, hpayload⟩ := Option.isSome_iff_exists.mp (hT.payload b hb)
  have hwork : work (fun node : OpNode => [node.parent]) [b.stateRoot] s ≤ s.length + 1 := by
    simp [work]
    omega
  rw [validateBlock, hpayload]
  dsimp only
  rw [validateLoop_eq_sweep, sweep_eq hwork, filter_filter, ← number_eq hpayload]
  refine h.filter_store fun a ha => ?_
  have hswept : Swept (fun node : OpNode => [node.parent]) s [b.stateRoot] a.root ↔
      ReflTransGen (Among o Up) b a :=
    h.swept_iff hT (fun x hx y hy => by simp [entry, Up, eq_comm]) hb ha
  rw [Bool.eq_iff_iff]
  simp only [Bool.and_eq_true, decide_eq_true_iff, not_or]
  rw [← hswept]
  exact and_comm

open Classical in
section

variable (h : Mirrors T o children s) (hT : Tree T)

include h hT

theorem Mirrors.invalidateBlock_eq (hb : b ∈ T) :
    invalidateBlock s b =
      (o.filter fun a => decide (¬ ReflTransGen (Among o (Down o)) b a)).map (entry children) := by
  obtain ⟨payload, hpayload⟩ := Option.isSome_iff_exists.mp (hT.payload b hb)
  rw [invalidateBlock, hpayload]
  dsimp only
  rw [sweep_eq le_rfl]
  refine h.filter_store fun a ha => decide_eq_decide.mpr (not_congr ?_)
  refine h.swept_iff hT (fun x hx y hy => ?_) hb ha
  exact ⟨fun hin => ⟨h.before x hx y hy hin, h.links x hx y (h.subset y hy) hin⟩,
    fun hdown => h.linked x hx y hy hdown.1 hdown.2⟩

theorem Mirrors.add (hb : b ∈ T) (hfresh : b ∉ o)
    (hroot : b.stateRoot = b.root) (hzero : b.root ≠ 0) :
    ∃ children', Mirrors T (o ++ [b]) children' (addOptimisticCandidate s b) := by
  obtain ⟨payload, hpayload⟩ := Option.isSome_iff_exists.mp (hT.payload b hb)
  obtain ⟨rank, hrank⟩ := hT.acyclic
  have hself : b.parentRoot ≠ b.root := fun heq => (hrank b hb b hb heq).false
  have hne : ∀ p ∈ o, p ≠ b := fun p hp heq => hfresh (heq ▸ hp)
  have hnodup : (o ++ [b]).Nodup := nodup_append.mpr ⟨h.nodup, by simp, by simpa using hne⟩
  let children' : BeaconBlock → List Hash := fun p =>
    if p = b then [] else if p.root = b.parentRoot then children p ++ [b.root] else children p
  have hchildren : ∀ p ∈ o, ∀ k, k ∈ children' p ↔
      k ∈ children p ∨ p.root = b.parentRoot ∧ k = b.root := by
    intro p hp k
    simp only [children', if_neg (hne p hp)]
    split <;> simp_all
  -- The new block has no children yet.
  have hold : ∀ p ∈ o ++ [b], ∀ k ∈ children' p, p ∈ o ∧
      (k ∈ children p ∨ p.root = b.parentRoot ∧ k = b.root) := by
    intro p hp k hk
    rcases mem_append.mp hp with hp | hp
    · exact ⟨hp, (hchildren p hp k).mp hk⟩
    · obtain rfl := mem_singleton.mp hp
      simp [children'] at hk
  refine ⟨children', ?_⟩
  refine
    { store := ?_
      subset := forall_mem_append.mpr ⟨h.subset, forall_mem_singleton.mpr hb⟩
      nodup := hnodup
      roots := forall_mem_append.mpr ⟨h.roots, forall_mem_singleton.mpr ⟨hroot, hzero⟩⟩
      linked := ?_, links := ?_, before := ?_ }
  · rw [addOptimisticCandidate, hpayload]
    dsimp only
    rw [hroot, h.load_eq hT hb, if_neg hfresh, List.map_append, List.map_append, h.store,
      List.map_map]
    refine congr_arg₂ _ (List.map_congr_left fun a ha => ?_) ?_
    · by_cases hparent : a.root = b.parentRoot <;>
        simp [linkChild, entry, children', hne a ha, hparent]
    · rw [map_singleton, map_singleton, linkChild, if_neg hself.symm, entry, number_eq hpayload]
      simp [children']
  · intro p _ c _ hbefore hparent
    rcases before_concat.mp hbefore with hbefore | ⟨hp, rfl⟩
    · exact (hchildren p hbefore.mem.1 _).mpr (.inl (h.linked p hbefore.mem.1 c hbefore.mem.2
        hbefore hparent))
    · exact (hchildren p hp _).mpr (.inr ⟨hparent.symm, rfl⟩)
  · intro p hp c hc hchild
    obtain ⟨hp, hchild⟩ := hold p hp c.root hchild
    rcases hchild with hchild | ⟨hparent, hroot⟩
    · exact h.links p hp c hc hchild
    · obtain rfl := hT.root_inj c hc b hb hroot
      exact hparent.symm
  · intro p hp c hc hchild
    obtain ⟨hp, hchild⟩ := hold p hp c.root hchild
    rw [before_concat]
    rcases mem_append.mp hc with hc | hc
    · rcases hchild with hchild | ⟨-, hroot⟩
      · exact .inl (h.before p hp c hc hchild)
      · exact .inr ⟨hp, hT.root_inj c (h.subset c hc) b hb hroot⟩
    · exact .inr ⟨hp, mem_singleton.mp hc⟩

theorem Mirrors.add_present (hb : b ∈ o) : addOptimisticCandidate s b = s := by
  rw [addOptimisticCandidate]
  cases b.payload with
  | none => rfl
  | some payload =>
    dsimp only
    rw [(h.roots b hb).1, h.load_eq hT (h.subset b hb), if_pos hb]

/-- A block that is stored under another key, or under the zero key, is not found. -/
theorem Mirrors.add_missed (hb : b ∈ T) (hfresh : b ∉ o)
    (hkey : ¬ (b.stateRoot = b.root ∧ b.root ≠ 0)) :
    isOptimistic (addOptimisticCandidate s b) b.root = false := by
  by_cases hzero : b.root = 0
  · simp [isOptimistic, hzero]
  · have hroot : b.stateRoot ≠ b.root := fun heq => hkey ⟨heq, hzero⟩
    have hold : load s b.root = none := by rw [h.load_eq hT hb, if_neg hfresh]
    have hnone : load (addOptimisticCandidate s b) b.root = none := by
      rw [addOptimisticCandidate]
      split
      · exact hold
      · dsimp only
        split
        · exact hold
        · rw [load_eq_none] at hold ⊢
          intro e he
          obtain ⟨e', he', rfl⟩ := mem_map.mp he
          have hfst : ∀ e : Hash × OpNode, (linkChild b.parentRoot b.stateRoot e).1 = e.1 := by
            intro e
            rw [linkChild]
            split <;> rfl
          rw [hfst]
          rcases mem_append.mp he' with he' | he'
          · exact hold e' he'
          · obtain rfl := mem_singleton.mp he'
            exact hroot
    simp [isOptimistic, hnone]

end

end Mirrored

/-! ### Exact runs -/

/-- A call that does to the store what it does to the optimistic blocks: a block is added
under its root; ancestors that are not behind in number are reached through optimistic
blocks; descendants are reached through optimistic blocks, each added after its parent. -/
def Call.Clean (o : List BeaconBlock) : Call → Prop
  | .addOptimisticCandidate b => b ∉ o → b.stateRoot = b.root ∧ b.root ≠ 0
  | .validateBlock b => ∀ a ∈ o, Leads T a b → b.number ≤ a.number →
      ReflTransGen (Among o Up) b a
  | .invalidateBlock b => ∀ a ∈ o, Leads T b a → ReflTransGen (Among o (Down o)) b a

def Clean (T : Set BeaconBlock) : List Call → Prop
  | [] => True
  | call :: calls => Clean T calls ∧ call.Clean T (optimistic T calls)

section Exactness

variable {T : Set BeaconBlock} {calls : List Call} {children : BeaconBlock → List Hash}

open Classical in
/-- A call that deletes nodes is exact if it deletes those of the blocks it hits. -/
theorem exact_filter (hT : Tree T) (h : Mirrors T (optimistic T calls) children (run calls))
    {call : Call} {deleted : BeaconBlock → Prop} [DecidablePred deleted]
    (hrun : run (call :: calls) =
      ((optimistic T calls).filter fun a => decide (¬ deleted a)).map (entry children))
    (hspec : optimistic T (call :: calls) =
      (optimistic T calls).filter fun a => decide (¬ call.Hits T a))
    (hclean : (∀ a ∈ optimistic T calls, deleted a ↔ call.Hits T a) ↔
      call.Clean T (optimistic T calls)) :
    (Exact T (call :: calls) ↔ call.Clean T (optimistic T calls)) ∧
      (call.Clean T (optimistic T calls) → ∃ children',
        Mirrors T (optimistic T (call :: calls)) children' (run (call :: calls))) := by
  have hmirrors := h.filter fun a => decide (¬ deleted a)
  rw [← hrun] at hmirrors
  rw [← hclean]
  constructor
  · have hexact : Exact T (call :: calls) ↔ ∀ b ∈ T,
        (b ∈ optimistic T calls ∧ ¬ deleted b ↔ b ∈ optimistic T calls ∧ ¬ call.Hits T b) := by
      refine forall₂_congr fun b hb => ?_
      rw [hmirrors.isOptimistic_iff hT hb, ← mem_optimistic, hspec]
      simp
    rw [hexact]
    constructor
    · intro hall a ha
      have hiff := hall a (h.subset a ha)
      rw [and_iff_right ha, and_iff_right ha] at hiff
      exact not_iff_not.mp hiff
    · intro hall b _
      exact and_congr_right fun hbo => not_congr (hall b hbo)
  · intro hall
    refine ⟨children, ?_⟩
    rw [hspec, ← filter_congr fun a ha => decide_eq_decide.mpr (not_congr (hall a ha))]
    exact hmirrors

theorem leads_of_up {o : List BeaconBlock} (hsubset : ∀ b ∈ o, b ∈ T) {a b : BeaconBlock}
    (h : ReflTransGen (Among o Up) b a) : Leads T a b := by
  induction h with
  | refl => exact .refl
  | tail _ hstep ih => exact .head ⟨hsubset _ hstep.2.1, hsubset _ hstep.1, hstep.2.2⟩ ih

theorem leads_of_down {o : List BeaconBlock} (hsubset : ∀ b ∈ o, b ∈ T) {a b : BeaconBlock}
    (h : ReflTransGen (Among o (Down o)) b a) : Leads T b a :=
  h.lift id fun x y hstep => ⟨hsubset x hstep.1, hsubset y hstep.2.1, hstep.2.2.2⟩

theorem Mirrors.exact (hT : Tree T) (h : Mirrors T (optimistic T calls) children (run calls)) :
    Exact T calls := fun b hb => by rw [h.isOptimistic_iff hT hb, mem_optimistic]

/-- One call more is exact if and only if it is clean, and then the store mirrors the
optimistic blocks again. -/
theorem exact_cons_iff (hT : Tree T) (h : Mirrors T (optimistic T calls) children (run calls))
    {call : Call} (hcall : call.block ∈ T) :
    (Exact T (call :: calls) ↔ call.Clean T (optimistic T calls)) ∧
      (call.Clean T (optimistic T calls) → ∃ children',
        Mirrors T (optimistic T (call :: calls)) children' (run (call :: calls))) := by
  classical
  cases call with
  | addOptimisticCandidate b =>
    have hb : b ∈ T := hcall
    by_cases hbo : b ∈ optimistic T calls
    · have hmirrors : Mirrors T (optimistic T (.addOptimisticCandidate b :: calls)) children
          (run (.addOptimisticCandidate b :: calls)) := by
        rw [optimistic, if_pos hbo, run, Call.apply, h.add_present hT hbo]
        exact h
      exact ⟨iff_of_true (hmirrors.exact hT) fun hnot => absurd hbo hnot,
        fun _ => ⟨children, hmirrors⟩⟩
    · by_cases hkey : b.stateRoot = b.root ∧ b.root ≠ 0
      · obtain ⟨children', hmirrors⟩ := h.add hT hb hbo hkey.1 hkey.2
        have hspec : optimistic T (.addOptimisticCandidate b :: calls) =
            optimistic T calls ++ [b] := by rw [optimistic, if_neg hbo]
        rw [← hspec] at hmirrors
        exact ⟨iff_of_true (hmirrors.exact hT) fun _ => hkey, fun _ => ⟨children', hmirrors⟩⟩
      · have hmissed := h.add_missed hT hb hbo hkey
        refine ⟨iff_of_false (fun hexact => ?_) fun hclean => hkey (hclean hbo),
          fun hclean => absurd (hclean hbo) hkey⟩
        have hadded := (hexact b hb).mpr (optimistic_cons.mpr (.inl rfl))
        rw [run, Call.apply, hmissed] at hadded
        exact Bool.false_ne_true hadded
  | validateBlock b =>
    have hrun : run (.validateBlock b :: calls) = _ := h.validateBlock_eq hT hcall
    refine exact_filter hT h hrun rfl (forall₂_congr fun a ha => ?_)
    have hleads : ReflTransGen (Among (optimistic T calls) Up) b a → Leads T a b :=
      leads_of_up h.subset
    rw [Call.Hits]
    constructor
    · intro hiff hanc hle
      exact (hiff.mpr (.inl hanc)).resolve_right (by omega)
    · intro hreach
      constructor
      · exact Or.imp_left hleads
      · rintro (hanc | hlt)
        · by_cases hlt : a.number < b.number
          · exact .inr hlt
          · exact .inl (hreach hanc (by omega))
        · exact .inr hlt
  | invalidateBlock b =>
    have hrun : run (.invalidateBlock b :: calls) = _ := h.invalidateBlock_eq hT hcall
    refine exact_filter hT h hrun rfl (forall₂_congr fun a ha => ?_)
    exact ⟨fun hiff => hiff.mpr, fun hreach => ⟨leads_of_down h.subset, hreach⟩⟩

/-- Clean calls lead to a store that mirrors the optimistic blocks. -/
theorem Clean.mirrors (hT : Tree T) (hcalls : ∀ call ∈ calls, call.block ∈ T)
    (hclean : Clean T calls) : ∃ children, Mirrors T (optimistic T calls) children (run calls) := by
  induction calls with
  | nil =>
    exact ⟨fun _ => [], rfl, by simp [optimistic], nodup_nil, by simp [optimistic],
      by simp [optimistic], by simp [optimistic], by simp [optimistic]⟩
  | cons call calls ih =>
    obtain ⟨children, h⟩ := ih (fun c hc => hcalls c (mem_cons_of_mem _ hc)) hclean.1
    exact (exact_cons_iff hT h (hcalls call mem_cons_self)).2 hclean.2

/-- The store tells the optimistic blocks at all times of a run if and only if all calls
are clean. -/
theorem exact_throughout_iff (hT : Tree T) (hcalls : ∀ call ∈ calls, call.block ∈ T) :
    (∀ before, before <:+ calls → Exact T before) ↔ Clean T calls := by
  induction calls with
  | nil =>
    obtain ⟨children, h⟩ := Clean.mirrors hT hcalls trivial
    refine iff_of_true (fun before hbefore => ?_) trivial
    rw [suffix_nil.mp hbefore]
    exact h.exact hT
  | cons call calls ih =>
    have hrest : ∀ c ∈ calls, c.block ∈ T := fun c hc => hcalls c (mem_cons_of_mem _ hc)
    have hsplit : (∀ before, before <:+ call :: calls → Exact T before) ↔
        (∀ before, before <:+ calls → Exact T before) ∧ Exact T (call :: calls) := by
      simp only [suffix_cons_iff, or_imp, forall_and, forall_eq]
      exact and_comm
    rw [hsplit, ih hrest, Clean]
    refine and_congr_right fun hclean => ?_
    obtain ⟨children, h⟩ := Clean.mirrors hT hrest hclean
    exact (exact_cons_iff hT h (hcalls call mem_cons_self)).1

end Exactness

/-- A chain of two blocks on one whose payload is known, and a block beside them; their
state roots are their block roots. -/
def sampleBlock (root parentRoot : Hash) (number : Nat) : BeaconBlock where
  root := root
  stateRoot := root
  parentRoot := parentRoot
  executionPayload := some ⟨number, [1]⟩

def sampleTree : Set BeaconBlock :=
  {sampleBlock 1 0 1, sampleBlock 2 1 2, sampleBlock 3 0 2}

theorem tree_sampleTree : Tree sampleTree where
  payload b hb := by
    obtain rfl | rfl | rfl := hb <;> rfl
  root_inj a ha b hb heq := by
    obtain rfl | rfl | rfl := ha <;> obtain rfl | rfl | rfl := hb <;> first | rfl | cases heq
  stateRoot_inj a ha b hb heq := by
    obtain rfl | rfl | rfl := ha <;> obtain rfl | rfl | rfl := hb <;> first | rfl | cases heq
  acyclic := by
    refine ⟨fun b => b.root.toNat, fun a ha b hb heq => ?_⟩
    obtain rfl | rfl | rfl := ha <;> obtain rfl | rfl | rfl := hb <;> first | decide | cases heq

theorem optimistic_sample : optimistic sampleTree
    [.addOptimisticCandidate (sampleBlock 2 1 2), .addOptimisticCandidate (sampleBlock 1 0 1)] =
      [sampleBlock 1 0 1, sampleBlock 2 1 2] := by
  have hone : optimistic sampleTree [.addOptimisticCandidate (sampleBlock 1 0 1)] =
      [sampleBlock 1 0 1] := by
    rw [optimistic, optimistic, if_neg not_mem_nil]
    rfl
  rw [optimistic, hone, if_neg (by decide)]
  rfl

/-- A chain is added and its first block is invalidated. -/
theorem exact_sample : Exact sampleTree
    [.invalidateBlock (sampleBlock 1 0 1), .addOptimisticCandidate (sampleBlock 2 1 2),
      .addOptimisticCandidate (sampleBlock 1 0 1)] := by
  refine (exact_throughout_iff tree_sampleTree ?_).mpr ?_ _ (suffix_refl _)
  · simp [Call.block, sampleTree]
  · refine ⟨⟨⟨trivial, fun _ => ⟨rfl, by decide⟩⟩, fun _ => ⟨rfl, by decide⟩⟩, ?_⟩
    rw [optimistic_sample]
    intro a ha _
    obtain rfl | rfl : a = sampleBlock 1 0 1 ∨ a = sampleBlock 2 1 2 := by simpa using ha
    · exact .refl
    · exact .single ⟨by simp, by simp, List.Sublist.refl _, rfl⟩

/-- A block whose state root is not its block root is added, and is not found.  With state
roots for block roots, a block still counts as optimistic whose parent was first dropped
for its number and then invalidated. -/
theorem isOptimistic_misses :
    (∃ b : BeaconBlock, Tree {b} ∧ Optimistic {b} [.addOptimisticCandidate b] b ∧
      isOptimistic (run [.addOptimisticCandidate b]) b.root = false) ∧
    ∃ calls, (∀ call ∈ calls, call.block ∈ sampleTree) ∧
      isOptimistic (run calls) (sampleBlock 2 1 2).root = true ∧
      ¬ Optimistic sampleTree calls (sampleBlock 2 1 2) := by
  constructor
  · refine ⟨⟨1, 2, 0, some ⟨1, [1]⟩⟩, ?_, ⟨[], [], rfl, by simp⟩, by decide⟩
    refine ⟨?_, ?_, ?_, fun _ => 0, ?_⟩
    · rintro b rfl
      rfl
    · rintro a rfl b rfl -
      rfl
    · rintro a rfl b rfl -
      rfl
    · rintro a rfl b rfl heq
      cases heq
  · refine ⟨[.invalidateBlock (sampleBlock 1 0 1), .validateBlock (sampleBlock 3 0 2),
      .addOptimisticCandidate (sampleBlock 2 1 2), .addOptimisticCandidate (sampleBlock 1 0 1)],
      by simp [Call.block, sampleTree], by decide, ?_⟩
    rw [optimistic_cons]
    rintro (heq | ⟨-, hmissed⟩)
    · cases heq
    · exact hmissed (.single ⟨.inl rfl, .inr (.inl rfl), rfl⟩)

end OptimisticStore

end Erigon

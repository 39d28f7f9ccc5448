/-
The latest messages of the validators, over whole runs of votes.  A message is kept under a
number while some validator has it; the number comes from a counter of 16 bits, and the slice
of numbers starts anew when an index does not fit its capacity.
-/
import Mathlib.Data.List.GetD
import Erigon.ForkChoice

namespace Erigon

open List Option Function

namespace ForkChoice

open KeyedTable

namespace LatestMessagesStore

/-- What the messages of a table are counted with. -/
def Counted (idxByMessage counts : List (LatestMessage × Nat)) (f : Nat → Nat) : Prop :=
  (∀ e ∈ counts, ∃ id, load idxByMessage e.1 = some id ∧ e.2 = f id) ∧
    ∀ m id, load idxByMessage m = some id → load counts m = none → f id = 0

/-- The two tables are inverse to each other, the numbers in use are in them, and each message
is counted with the validators that have its number. -/
structure Linked (l : LatestMessagesStore) : Prop where
  paired : ∀ id m, load l.messageByIdx id = some m ↔ load l.idxByMessage m = some id
  zero_free : load l.messageByIdx 0 = none
  proper : ∀ id m, load l.messageByIdx id = some m → m ≠ default
  numbered : ∀ id ∈ l.latestMessages, id ≠ 0 → load l.messageByIdx id ≠ none
  counted : Counted l.idxByMessage l.countOfMessages fun id => l.latestMessages.count id

/-- A message that is new gets a number that is neither zero nor taken, and no vote is lost when
the slice starts anew. -/
def Safe (l : LatestMessagesStore) (idx : Nat) (m : LatestMessage) : Prop :=
  (load l.idxByMessage m = none → (l.currID + 1) % 2 ^ 16 ≠ 0 ∧
    load l.messageByIdx ((l.currID + 1) % 2 ^ 16) = none) ∧
  (l.latestMessages.length ≤ idx → l.capacity ≤ idx → ∀ id ∈ l.latestMessages, id = 0)

section Counting

variable {idxByMessage counts : List (LatestMessage × Nat)} {f g : Nat → Nat}
  {m : LatestMessage} {id : Nat}

theorem Counted.load_eq (h : Counted idxByMessage counts f)
    (hm : load idxByMessage m = some id) : (load counts m).getD 0 = f id := by
  cases hcount : load counts m with
  | none => exact (h.2 m id hm hcount).symm
  | some c =>
    obtain ⟨id', hid', rfl⟩ := h.1 (m, c) (mem_of_load hcount)
    rw [hm, some.injEq] at hid'
    rw [getD_some, hid']

theorem Counted.congr (h : Counted idxByMessage counts f)
    (heq : ∀ m id, load idxByMessage m = some id → f id = g id) :
    Counted idxByMessage counts g := by
  refine ⟨fun e he => ?_, fun m id hm hnone => heq m id hm ▸ h.2 m id hm hnone⟩
  obtain ⟨id, hid, hcount⟩ := h.1 e he
  exact ⟨id, hid, hcount.trans (heq e.1 id hid)⟩

theorem Counted.store (h : Counted idxByMessage counts f) (hm : load idxByMessage m = some id)
    (hone : ∀ m', load idxByMessage m' = some id → m' = m) (c : Nat) :
    Counted idxByMessage (store counts m c) (update f id c) := by
  have hother {m' : LatestMessage} {id' : Nat} (hm' : load idxByMessage m' = some id')
      (hne : m' ≠ m) : id' ≠ id := by
    rintro rfl
    exact hne (hone m' hm')
  constructor
  · intro e he
    rcases mem_cons.mp he with rfl | he
    · exact ⟨id, hm, by rw [update_self]⟩
    · obtain ⟨hmem, hne⟩ := mem_filter.mp he
      obtain ⟨id', hid', hcount⟩ := h.1 e hmem
      have hne' := hother hid' (of_decide_eq_true hne)
      exact ⟨id', hid', by rw [update_of_ne hne', hcount]⟩
  · intro m' id' hm' hnone
    rw [load_store] at hnone
    split at hnone
    · cases hnone
    · next hne =>
      rw [update_of_ne (hother hm' hne)]
      exact h.2 m' id' hm' hnone

end Counting

variable {l : LatestMessagesStore} {idx id : Nat} {m : LatestMessage}

theorem Linked.ne_zero (h : Linked l) (hm : load l.idxByMessage m = some id) : id ≠ 0 := by
  rintro rfl
  rw [← h.paired, h.zero_free] at hm
  cases hm

/-- An index that no vote was stored at has the number zero, which stands for no message. -/
theorem Linked.get_eq (h : Linked l) (i : Nat) :
    l.get i = load l.messageByIdx (l.latestMessages.getD i 0) := by
  rw [get, getD_eq_getElem?_getD]
  cases l.latestMessages[i]? with
  | none => exact h.zero_free.symm
  | some id => rfl

theorem Linked.getD_numbered (h : Linked l) (i : Nat) (hne : l.latestMessages.getD i 0 ≠ 0) :
    load l.messageByIdx (l.latestMessages.getD i 0) ≠ none := by
  rcases Nat.lt_or_ge i l.latestMessages.length with hi | hi
  · rw [getD_eq_getElem _ _ hi] at hne ⊢
    exact h.numbered _ (getElem_mem hi) hne
  · exact absurd (getD_eq_default _ _ hi) hne

/-- A new message takes its number, and nothing else is seen to change. -/
theorem Linked.number (h : Linked l) (hm : m ≠ default)
    (hfresh : load l.idxByMessage m = none → (l.currID + 1) % 2 ^ 16 ≠ 0 ∧
      load l.messageByIdx ((l.currID + 1) % 2 ^ 16) = none) :
    Linked (l.number m) ∧ (∃ id, load (l.number m).idxByMessage m = some id) ∧
      (l.number m).latestMessages = l.latestMessages ∧ (l.number m).capacity = l.capacity ∧
      ∀ i, (l.number m).get i = l.get i := by
  rw [LatestMessagesStore.number]
  cases hload : load l.idxByMessage m with
  | some id => exact ⟨h, ⟨id, hload⟩, rfl, rfl, fun _ => rfl⟩
  | none =>
    obtain ⟨hne, hfree⟩ := hfresh hload
    generalize (l.currID + 1) % 2 ^ 16 = id at hne hfree
    have hunused : l.latestMessages.count id = 0 :=
      count_eq_zero.mpr fun hmem => h.numbered id hmem hne hfree
    have hkept {id' : Nat} (hid' : load l.messageByIdx id' ≠ none) :
        load (KeyedTable.store l.messageByIdx id m) id' = load l.messageByIdx id' := by
      rw [load_store, if_neg]
      rintro rfl
      exact hid' hfree
    have hlinked : Linked { l with
        currID := id
        idxByMessage := KeyedTable.store l.idxByMessage m id
        messageByIdx := KeyedTable.store l.messageByIdx id m } := by
      constructor
      case paired =>
        intro id' m'
        simp only [load_store]
        by_cases hid : id' = id <;> by_cases hm' : m' = m
        · simp [hid, hm']
        · simp only [hid, hm', if_true, if_false, some.injEq]
          refine ⟨fun h' => absurd h'.symm hm', fun h' => ?_⟩
          rw [← h.paired, hfree] at h'
          cases h'
        · simp only [hid, hm', if_true, if_false, some.injEq]
          refine ⟨fun h' => ?_, fun h' => absurd h'.symm hid⟩
          rw [h.paired, hload] at h'
          cases h'
        · simpa only [hid, hm', if_false] using h.paired id' m'
      case zero_free =>
        rw [load_store, if_neg hne.symm, h.zero_free]
      case proper =>
        intro id' m' hload'
        rw [load_store] at hload'
        split at hload'
        · cases hload'
          exact hm
        · exact h.proper id' m' hload'
      case numbered =>
        intro id' hmem hne'
        rw [hkept (h.numbered id' hmem hne')]
        exact h.numbered id' hmem hne'
      case counted =>
        constructor
        · intro e he
          obtain ⟨id', hid', hcount⟩ := h.counted.1 e he
          refine ⟨id', ?_, hcount⟩
          rw [load_store, if_neg, hid']
          rintro rfl
          rw [hload] at hid'
          cases hid'
        · intro m' id' hm' hnone
          rw [load_store] at hm'
          split at hm'
          · cases hm'
            exact hunused
          · exact h.counted.2 m' id' hm' hnone
    refine ⟨hlinked, ⟨id, by rw [load_store, if_pos rfl]⟩, rfl, rfl, fun i => ?_⟩
    rw [hlinked.get_eq, h.get_eq]
    by_cases hzero : l.latestMessages.getD i 0 = 0
    · rw [hzero, hlinked.zero_free, h.zero_free]
    · exact hkept (h.getD_numbered i hzero)

/-- The slice grows by zeros. -/
theorem grow_spec (hsafe : l.latestMessages.length ≤ idx → l.capacity ≤ idx →
      ∀ id ∈ l.latestMessages, id = 0) :
    ∃ ids capacity, l.grow idx = { l with latestMessages := ids, capacity := capacity } ∧
      idx < ids.length ∧ (∀ id ≠ 0, ids.count id = l.latestMessages.count id) ∧
      ∀ i, ids.getD i 0 = l.latestMessages.getD i 0 := by
  rw [grow]
  split
  · next hlt => exact ⟨_, _, rfl, hlt, fun _ _ => rfl, fun _ => rfl⟩
  · next hge =>
    split
    · next hcapacity =>
      have hzero := hsafe (by omega) hcapacity
      refine ⟨_, _, rfl, by simp, fun id hne => ?_, fun i => ?_⟩
      · rw [count_replicate, if_neg (by simpa using hne.symm), eq_comm, count_eq_zero]
        exact fun hmem => hne (hzero id hmem)
      · rcases Nat.lt_or_ge i l.latestMessages.length with hi | hi
        · rw [getD_eq_getElem _ _ hi, hzero _ (getElem_mem hi)]
          simp
        · rw [getD_eq_default _ _ hi]
          simp
    · refine ⟨_, _, rfl, by simp; omega, fun id hne => ?_, fun i => ?_⟩
      · rw [count_append, count_replicate, if_neg (by simpa using hne.symm), Nat.add_zero]
      · rcases Nat.lt_or_ge i l.latestMessages.length with hi | hi
        · rw [getD_append _ _ _ _ hi]
        · rw [getD_append_right _ _ _ _ hi, getD_eq_default _ _ hi]
          simp

theorem Linked.grow (h : Linked l) {ids : List Nat} (capacity : Nat)
    (hcount : ∀ id ≠ 0, ids.count id = l.latestMessages.count id) :
    Linked { l with latestMessages := ids, capacity := capacity } where
  paired := h.paired
  zero_free := h.zero_free
  proper := h.proper
  numbered id hmem hne := by
    refine h.numbered id ?_ hne
    rw [← count_pos_iff, ← hcount id hne, count_pos_iff]
    exact hmem
  counted := h.counted.congr fun m id hm => (hcount id (h.ne_zero hm)).symm

/-- The vote is counted for its message and no longer for the one it replaces. -/
theorem Linked.assign (h : Linked l) (hidx : idx < l.latestMessages.length)
    (hm : load l.idxByMessage m = some id) {counts : List (LatestMessage × Nat)}
    (hcounts : counts =
      if (l.get idx).getD default ≠ default ∧
          0 < (load l.countOfMessages ((l.get idx).getD default)).getD 0 then
        KeyedTable.store l.countOfMessages ((l.get idx).getD default)
          ((load l.countOfMessages ((l.get idx).getD default)).getD 0 - 1)
      else l.countOfMessages) :
    Linked { l with
      latestMessages := l.latestMessages.set idx id
      countOfMessages := KeyedTable.store counts m ((load counts m).getD 0 + 1) } := by
  have hone {m : LatestMessage} {id : Nat} (hm : load l.idxByMessage m = some id)
      (m' : LatestMessage) (hm' : load l.idxByMessage m' = some id) : m' = m := by
    rw [← h.paired] at hm hm'
    exact some.inj (hm'.symm.trans hm)
  have hgetD : l.latestMessages.getD idx 0 = l.latestMessages[idx] :=
    getD_eq_getElem _ _ hidx
  have hreplaced : Counted l.idxByMessage counts fun id =>
      l.latestMessages.count id - if l.latestMessages[idx] = id then 1 else 0 := by
    rw [h.get_eq, hgetD] at hcounts
    cases hprev : load l.messageByIdx l.latestMessages[idx] with
    | none =>
      rw [hcounts, hprev, if_neg (fun hne => hne.1 rfl)]
      refine h.counted.congr fun m' id' hm' => ?_
      rw [if_neg, Nat.sub_zero]
      rintro rfl
      rw [← h.paired, hprev] at hm'
      cases hm'
    | some prev =>
      have hloaded := (h.paired _ _).mp hprev
      have hcount := h.counted.load_eq hloaded
      have hpos : 0 < l.latestMessages.count l.latestMessages[idx] :=
        count_pos_iff.mpr (getElem_mem hidx)
      rw [hprev, getD_some, hcount, if_pos ⟨h.proper _ _ hprev, hpos⟩] at hcounts
      rw [hcounts]
      refine (h.counted.store hloaded (hone hloaded) _).congr fun m' id' hm' => ?_
      by_cases hid : id' = l.latestMessages[idx]
      · rw [hid, update_self, if_pos rfl]
      · rw [update_of_ne hid, if_neg (Ne.symm hid), Nat.sub_zero]
  refine ⟨h.paired, h.zero_free, h.proper, fun id' hmem hne => ?_, ?_⟩
  · rcases mem_or_eq_of_mem_set hmem with hmem | rfl
    · exact h.numbered id' hmem hne
    · rw [(h.paired _ _).mpr hm]
      exact some_ne_none m
  · refine (hreplaced.store hm (hone hm) _).congr fun m' id' hm' => ?_
    rw [hreplaced.load_eq hm, count_set hidx]
    by_cases hid : id' = id
    · rw [hid, update_self]
      simp
    · rw [update_of_ne hid]
      simp [Ne.symm hid]

/-- One message that no validator has is forgotten. -/
theorem Linked.prune (h : Linked l)
    (hunused : ∀ id, load l.idxByMessage m = some id → l.latestMessages.count id = 0) :
    Linked { l with
      messageByIdx := delete l.messageByIdx ((load l.idxByMessage m).getD 0)
      idxByMessage := delete l.idxByMessage m
      countOfMessages := delete l.countOfMessages m } := by
  have hsame {id : Nat} {m' : LatestMessage} (hm' : load l.idxByMessage m' = some id) :
      id = (load l.idxByMessage m).getD 0 ↔ m' = m := by
    constructor
    · rintro rfl
      cases hload : load l.idxByMessage m with
      | none =>
        rw [hload] at hm'
        exact absurd rfl (h.ne_zero hm')
      | some id =>
        rw [hload, ← h.paired, getD_some] at hm'
        rw [← h.paired] at hload
        exact some.inj (hm'.symm.trans hload)
    · rintro rfl
      rw [hm', getD_some]
  constructor
  case paired =>
    intro id m'
    rw [load_delete, load_delete]
    by_cases hm' : load l.idxByMessage m' = some id
    · have hid := (h.paired id m').mpr hm'
      simp [hsame hm', hid, hm']
    · have hid := mt (h.paired id m').mp hm'
      split <;> split <;> simp [hid, hm']
  case zero_free =>
    rw [load_delete, h.zero_free, ite_self]
  case proper =>
    intro id m' hload
    rw [load_delete] at hload
    split at hload
    · cases hload
    · exact h.proper id m' hload
  case numbered =>
    intro id hmem hne
    rw [load_delete]
    split
    · next heq =>
      obtain ⟨m', hm'⟩ := ne_none_iff_exists'.mp (h.numbered id hmem hne)
      rw [h.paired] at hm'
      have hcount := hunused id ((hsame hm').mp heq ▸ hm')
      exact absurd hmem (count_eq_zero.mp hcount)
    · exact h.numbered id hmem hne
  case counted =>
    constructor
    · intro e he
      obtain ⟨hmem, hne⟩ := mem_filter.mp he
      obtain ⟨id, hid, hcount⟩ := h.counted.1 e hmem
      rw [load_delete, if_neg (of_decide_eq_true hne)]
      exact ⟨id, hid, hcount⟩
    · intro m' id hm' hnone
      rw [load_delete] at hm' hnone
      split at hm'
      · cases hm'
      · next hne => exact h.counted.2 m' id hm' ((if_neg hne).symm.trans hnone)

/-- Pruning forgets only messages that no validator has. -/
theorem Linked.doPrune (h : Linked l) : Linked l.doPrune ∧ ∀ i, l.doPrune.get i = l.get i := by
  have hall : ∀ e ∈ l.countOfMessages.filter fun e => decide (e.2 = 0), ∀ id,
      load l.idxByMessage e.1 = some id → l.latestMessages.count id = 0 := by
    intro e he id hid
    obtain ⟨hmem, hzero⟩ := mem_filter.mp he
    obtain ⟨id', hid', hcount⟩ := h.counted.1 e hmem
    rw [hid, some.injEq] at hid'
    rw [hid']
    exact hcount.symm.trans (of_decide_eq_true hzero)
  rw [LatestMessagesStore.doPrune]
  generalize l.countOfMessages.filter (fun e => decide (e.2 = 0)) = unused at hall
  induction unused generalizing l with
  | nil => exact ⟨h, fun _ => rfl⟩
  | cons e unused ih =>
    rw [forall_mem_cons] at hall
    have hnext := h.prune hall.1
    obtain ⟨hlinked, hget⟩ := ih hnext fun e' he' id hid => by
      rw [load_delete] at hid
      split at hid
      · cases hid
      · exact hall.2 e' he' id hid
    refine ⟨hlinked, fun i => (hget i).trans ?_⟩
    rw [hnext.get_eq, h.get_eq]
    by_cases hzero : l.latestMessages.getD i 0 = 0
    · rw [hzero, hnext.zero_free, h.zero_free]
    · have hstays := hnext.getD_numbered i hzero
      rw [load_delete] at hstays ⊢
      split at hstays
      · exact absurd rfl hstays
      · next hne => rw [if_neg hne]

/-- One vote, from a store where it is safe. -/
theorem Linked.set (h : Linked l) (hm : m ≠ default) (hsafe : Safe l idx m) :
    Linked (l.set idx m) ∧ ∀ i, (l.set idx m).get i = if i = idx then some m else l.get i := by
  obtain ⟨hnumber, ⟨id, hid⟩, hids, hcapacity, hget⟩ := h.number hm hsafe.1
  have hfits : (l.number m).latestMessages.length ≤ idx → (l.number m).capacity ≤ idx →
      ∀ id ∈ (l.number m).latestMessages, id = 0 := by
    rw [hids, hcapacity]
    exact hsafe.2
  obtain ⟨ids, capacity, hgrow, hidx, hcount, hgetD⟩ := grow_spec hfits
  have hgrown := hnumber.grow capacity hcount
  rw [← hgrow] at hgrown
  have hidx' : idx < ((l.number m).grow idx).latestMessages.length := by
    rw [hgrow]
    exact hidx
  have hid' : load ((l.number m).grow idx).idxByMessage m = some id := by
    rw [hgrow]
    exact hid
  have hassigned := hgrown.assign hidx' hid' rfl
  obtain ⟨hlinked, hpruned⟩ := hassigned.doPrune
  simp only [LatestMessagesStore.set, hid, getD_some]
  refine ⟨hlinked, fun i => (hpruned i).trans ?_⟩
  rw [hassigned.get_eq]
  by_cases hi : i = idx
  · rw [if_pos hi, hi, getD_eq_getElem _ _ (by simpa using hidx'), getElem_set_self]
    exact (hgrown.paired _ _).mpr hid'
  · rw [if_neg hi, ← hget, hnumber.get_eq, ← hgetD, hgrow]
    dsimp only
    rw [getD_eq_getElem?_getD, getElem?_set_ne (Ne.symm hi), ← getD_eq_getElem?_getD]

/-- Votes one after the other. -/
def setAll (l : LatestMessagesStore) (calls : List (Nat × LatestMessage)) : LatestMessagesStore :=
  calls.foldl (fun l c => l.set c.1 c.2) l

def SafeRun (l : LatestMessagesStore) : List (Nat × LatestMessage) → Prop
  | [] => True
  | c :: calls => Safe l c.1 c.2 ∧ SafeRun (l.set c.1 c.2) calls

/-- The last vote of an index. -/
def lastVote (calls : List (Nat × LatestMessage)) (i : Nat) : Option LatestMessage :=
  (calls.reverse.find? (·.1 = i)).map Prod.snd

theorem Linked.setAll (h : Linked l) {calls : List (Nat × LatestMessage)}
    (hproper : ∀ c ∈ calls, c.2 ≠ default) (hsafe : SafeRun l calls) (i : Nat) :
    (l.setAll calls).get i = (lastVote calls i).or (l.get i) := by
  induction calls generalizing l with
  | nil => rfl
  | cons c calls ih =>
    rw [forall_mem_cons] at hproper
    obtain ⟨hlinked, hget⟩ := h.set hproper.1 hsafe.1
    have hrest := ih hlinked hproper.2 hsafe.2
    rw [LatestMessagesStore.setAll, foldl_cons, ← LatestMessagesStore.setAll, hrest, hget]
    simp only [lastVote, reverse_cons, find?_append, map_or]
    cases (calls.reverse.find? fun c => decide (c.1 = i)) with
    | some d => rfl
    | none => by_cases hi : i = c.1 <;> simp [hi, eq_comm]

theorem linked_new (size : Nat) : Linked (newLatestMessagesStore size) where
  paired _ _ := iff_of_false (fun h => nomatch h) fun h => nomatch h
  zero_free := rfl
  proper _ _ h := nomatch h
  numbered _ hmem hne := absurd (eq_of_mem_replicate hmem) hne
  counted := ⟨fun _ he => (nomatch he), fun _ _ h => (nomatch h)⟩

/-- After votes that are all safe every index has its last vote. -/
theorem get_setAll (size : Nat) (calls : List (Nat × LatestMessage))
    (hproper : ∀ c ∈ calls, c.2 ≠ default) (hsafe : SafeRun (newLatestMessagesStore size) calls)
    (i : Nat) :
    ((newLatestMessagesStore size).setAll calls).get i = lastVote calls i := by
  rw [(linked_new size).setAll hproper hsafe]
  have hnone : (newLatestMessagesStore size).get i = none := by
    rw [(linked_new size).get_eq]
    rfl
  rw [hnone, Option.or_none]

theorem get_setAll_two : ((newLatestMessagesStore 2).setAll [(0, ⟨1, 7⟩), (2, ⟨1, 7⟩)]).get 2 =
    some ⟨1, 7⟩ :=
  get_setAll 2 _ (by decide) (by simp only [SafeRun, Safe]; decide +kernel) 2

/-- A vote beyond the capacity loses the votes before it. -/
theorem vote_lost :
    ((newLatestMessagesStore 1).setAll [(0, ⟨1, 7⟩), (5, ⟨1, 9⟩)]).get 0 = none ∧
      lastVote [(0, ⟨1, 7⟩), (5, ⟨1, 9⟩)] 0 = some ⟨1, 7⟩ := by
  decide +kernel

end LatestMessagesStore

end ForkChoice

end Erigon

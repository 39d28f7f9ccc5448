/-
The keys that a B-tree index keeps in memory.  They are either read back from the index file, to
which its writer gave the first key and every `M`-th one, or picked from the data file when it is
opened.  Either way they are keys of the file under their numbers.
-/
import Erigon.BtIndex

namespace Erigon

open List

deriving instance DecidableEq for Node

/-- A data file of keys and values, in ascending order of the keys, and the offsets of the keys. -/
structure KvFile where
  data : DataFile
  entries : List (Bytes × Bytes)
  offt : List Nat
  offt_length : offt.length = entries.length
  length_lt : entries.length < 2 ^ 63
  reads : ∀ i offset k v, offt[i]? = some offset → entries[i]? = some (k, v) → ∃ p q,
    data.next false offset = some (k, p) ∧ data.next true p = some (v, q) ∧
    data.hasNext offset = true ∧ data.hasNext p = true ∧
    ∀ following, offt[i + 1]? = some following → q = following
  key_ne_nil : ∀ e ∈ entries, e.1 ≠ []
  ascending : entries.Pairwise fun e f => e.1 < f.1

namespace KvFile

def keys (f : KvFile) : List Bytes := f.entries.map Prod.fst

/-- The index with some keys in memory. -/
def index (f : KvFile) (mx : List Node) (hmx : ∀ n ∈ mx, n.di < f.offt.length) :
    BtIndex f.data where
  offt := f.offt
  mx := mx
  nodes := hmx
  pairs := by
    intro i offset hoffset
    have hi : i < f.entries.length := by
      rw [← f.offt_length]
      exact (List.getElem?_eq_some_iff.mp hoffset).1
    obtain ⟨p, q, hreads⟩ := f.reads i offset _ _ hoffset (List.getElem?_eq_getElem hi)
    exact ⟨_, p, _, q, hreads⟩

end KvFile

/-! ### Keys that are written -/

/-- `BtIndexWriter.AddKey` for the keys of a file, as `BuildBtreeIndexWithDecompressor` calls it:
what is collected for each, empty where the key is not kept.  The first key is kept if its first
byte is new; which it is, and with later keys that is not looked at. -/
def addKeys (M : Nat) : List Bytes → Nat → List UInt8 → List Bytes
  | [], _, _ => []
  | key :: keys, keysWritten, b0 =>
    let keep := !b0.contains (key.headD 0)
    let keepKey := if keysWritten > 0 then keysWritten % M == 0 else keep
    (if keepKey then key else []) :: addKeys M keys (keysWritten + 1) (key.headD 0 :: b0)

/-- The nodes that `BtIndexWriter.Build` makes of what was collected. -/
def buildNodes : List Bytes → Nat → List Node
  | [], _ => []
  | k :: ks, ki => if k.length > 0 then ⟨k, ki⟩ :: buildNodes ks (ki + 1) else buildNodes ks (ki + 1)

def Node.encode (n : Node) : Bytes := beBytes 8 n.di ++ (beBytes 2 n.key.length ++ n.key)

def encodeListNodes (nodes : List Node) : Bytes :=
  beBytes 8 nodes.length ++ nodes.flatMap Node.encode

/-- The node and the bytes that it takes. -/
def Node.decode (buf : Bytes) : Option (Node × Nat) :=
  if buf.length < 10 then none
  else
    let l := beNat ((buf.drop 8).take 2)
    if buf.length < 10 + l then none
    else some (⟨(buf.drop 10).take l, beNat (buf.take 8)⟩, 10 + l)

def decodeNodes : Nat → Bytes → Option (List Node)
  | 0, _ => some []
  | count + 1, data => do
    let (node, dp) ← Node.decode data
    let nodes ← decodeNodes count (data.drop dp)
    return node :: nodes

def decodeListNodes (data : Bytes) : Option (List Node) :=
  if data.length < 8 then none else decodeNodes (beNat (data.take 8)) (data.drop 8)

/-! ### Keys that are picked -/

/-- The loop of `BpsTree.WarmUp`. -/
def BtIndex.warmUpLoop {data : DataFile} (b : BtIndex data) (step : Nat) :
    Nat → Nat → Except BtFault (List Node)
  | 0, _ => .ok []
  | fuel + 1, i =>
    if i < b.offt.length then do
      let (key, _) ← b.keyAt (i - 1)
      let nodes ← warmUpLoop b step fuel (i + step)
      return ⟨key, i - 1⟩ :: nodes
    else .ok []

/-- `BpsTree.WarmUp`: of a small file all keys but the last are picked. -/
def BtIndex.warmUp {data : DataFile} (b : BtIndex data) (M : Nat) : Except BtFault (List Node) :=
  let step := if b.offt.length < M then 1 else M
  b.warmUpLoop step b.offt.length step

inductive NodeSource
  | written | picked
deriving DecidableEq

namespace KvFile

/-- The keys in memory, from either source. -/
def loadNodes (f : KvFile) (M : Nat) : NodeSource → Option (List Node)
  | .written => decodeListNodes (encodeListNodes (buildNodes (addKeys M f.keys 0 []) 0))
  | .picked => ((f.index [] (by simp)).warmUp M).toOption

/-- The index as it is opened; a node whose number is no key's has no offset. -/
def openIndex (f : KvFile) (M : Nat) (source : NodeSource) : Option (BtIndex f.data) := do
  let mx ← f.loadNodes M source
  if hmx : ∀ n ∈ mx, n.di < f.offt.length then some (f.index mx hmx) else none

end KvFile

/-! ### What is in memory -/

/-- Every node holds the key with its number. -/
def Keyed (keys : List Bytes) (mx : List Node) : Prop := ∀ n ∈ mx, keys[n.di]? = some n.key

theorem addKeys_length (M : Nat) (keys : List Bytes) (ki : Nat) (b0 : List UInt8) :
    (addKeys M keys ki b0).length = keys.length := by
  induction keys generalizing ki b0 with
  | nil => rfl
  | cons key keys ih => simp only [addKeys, length_cons, ih]

theorem buildNodes_length_le (ks : List Bytes) (ki : Nat) :
    (buildNodes ks ki).length ≤ ks.length := by
  induction ks generalizing ki with
  | nil => exact Nat.le_refl 0
  | cons k ks ih =>
    have hrest := ih (ki + 1)
    rw [buildNodes]
    split
    · exact Nat.succ_le_succ hrest
    · exact Nat.le_succ_of_le hrest

theorem buildNodes_addKeys_keyed (M : Nat) (keys : List Bytes) (ki : Nat) (b0 : List UInt8) :
    ∀ n ∈ buildNodes (addKeys M keys ki b0) ki, ki ≤ n.di ∧ keys[n.di - ki]? = some n.key := by
  induction keys generalizing ki b0 with
  | nil => simp [addKeys, buildNodes]
  | cons key keys ih =>
    intro n hn
    have hrest (hn : n ∈ buildNodes (addKeys M keys (ki + 1) (key.headD 0 :: b0)) (ki + 1)) :
        ki ≤ n.di ∧ (key :: keys)[n.di - ki]? = some n.key := by
      obtain ⟨hle, hkey⟩ := ih (ki + 1) _ n hn
      have hsucc : n.di - ki = n.di - (ki + 1) + 1 := by omega
      refine ⟨by omega, ?_⟩
      rw [hsucc, getElem?_cons_succ]
      exact hkey
    simp only [addKeys] at hn
    generalize (if ki > 0 then ki % M == 0 else !b0.contains (key.headD 0)) = keepKey at hn
    cases keepKey with
    | false => exact hrest hn
    | true =>
      simp only [buildNodes, if_true] at hn
      split at hn
      · rcases mem_cons.mp hn with rfl | hn
        · simp
        · exact hrest hn
      · exact hrest hn

/-- A node of a key that is shorter than `2 ^ 16` is read back. -/
theorem Node.decode_encode {n : Node} (hkey : n.key.length < 2 ^ 16) (hdi : n.di < 2 ^ 64)
    (rest : Bytes) : Node.decode (n.encode ++ rest) = some (n, n.encode.length) := by
  have hlength : n.encode.length = 10 + n.key.length := by
    simp only [encode, length_append, beBytes_length]
    omega
  have hdrop : (n.encode ++ rest).drop 8 = beBytes 2 n.key.length ++ (n.key ++ rest) := by
    rw [encode, append_assoc, append_assoc]
    exact drop_left' (beBytes_length 8 n.di)
  have hsize : beNat (((n.encode ++ rest).drop 8).take 2) = n.key.length := by
    rw [hdrop, take_left' (beBytes_length 2 _), beNat_beBytes]
    exact Nat.mod_eq_of_lt hkey
  have hnumber : beNat ((n.encode ++ rest).take 8) = n.di := by
    rw [encode, append_assoc, take_left' (beBytes_length 8 _), beNat_beBytes]
    exact Nat.mod_eq_of_lt hdi
  have hbytes : ((n.encode ++ rest).drop 10).take n.key.length = n.key := by
    have hten : (n.encode ++ rest).drop 10 = ((n.encode ++ rest).drop 8).drop 2 := by
      rw [drop_drop]
    rw [hten, hdrop, drop_left' (beBytes_length 2 _), take_left]
  rw [decode, if_neg (by rw [length_append]; omega)]
  simp only [hsize]
  rw [if_neg (by rw [length_append]; omega), hbytes, hnumber, hlength]

theorem decodeNodes_flatMap {nodes : List Node}
    (hnodes : ∀ n ∈ nodes, n.key.length < 2 ^ 16 ∧ n.di < 2 ^ 64) :
    decodeNodes nodes.length (nodes.flatMap Node.encode) = some nodes := by
  induction nodes with
  | nil => rfl
  | cons n nodes ih =>
    obtain ⟨hn, hrest⟩ := forall_mem_cons.mp hnodes
    rw [length_cons, decodeNodes, flatMap_cons, Node.decode_encode hn.1 hn.2]
    simp [ih hrest]

theorem decodeListNodes_encodeListNodes {nodes : List Node} (hlength : nodes.length < 2 ^ 64)
    (hnodes : ∀ n ∈ nodes, n.key.length < 2 ^ 16 ∧ n.di < 2 ^ 64) :
    decodeListNodes (encodeListNodes nodes) = some nodes := by
  have hcount : beNat (beBytes 8 nodes.length) = nodes.length := by
    rw [beNat_beBytes]
    exact Nat.mod_eq_of_lt hlength
  rw [decodeListNodes, encodeListNodes, if_neg (by simp), take_left' (beBytes_length 8 _),
    drop_left' (beBytes_length 8 _), hcount]
  exact decodeNodes_flatMap hnodes

namespace KvFile

variable (f : KvFile)

theorem keys_length : f.keys.length = f.entries.length := length_map ..

variable {i M : Nat}

theorem exists_entry (hi : i < f.offt.length) :
    ∃ k v offset p q, f.entries[i]? = some (k, v) ∧ f.offt[i]? = some offset ∧
      f.data.next false offset = some (k, p) ∧ f.data.next true p = some (v, q) ∧
      f.data.hasNext offset = true ∧ f.data.hasNext p = true ∧
      ∀ following, f.offt[i + 1]? = some following → q = following := by
  have hoffset := List.getElem?_eq_getElem hi
  have hentry := List.getElem?_eq_getElem (Nat.lt_of_lt_of_eq hi f.offt_length)
  obtain ⟨p, q, hreads⟩ := f.reads i _ _ _ hoffset hentry
  exact ⟨_, _, _, p, q, hentry, hoffset, hreads⟩

theorem lt_of_keys {k : Bytes} (h : f.keys[i]? = some k) : i < f.offt.length := by
  rw [f.offt_length, ← keys_length]
  exact (List.getElem?_eq_some_iff.mp h).1

theorem getElem?_keys {k v : Bytes} (h : f.entries[i]? = some (k, v)) :
    f.keys[i]? = some k := by rw [keys, getElem?_map, h]; rfl

theorem keyAt_index {mx : List Node} {hmx : ∀ n ∈ mx, n.di < f.offt.length} (hi : i < f.offt.length) :
    ∃ k v p, f.entries[i]? = some (k, v) ∧ (f.index mx hmx).keyAt i = .ok (k, p) ∧
      f.data.valueAt p = .ok v := by
  obtain ⟨k, v, offset, p, q, hentry, hoffset, hkey, hvalue, hhas, hhas', -⟩ := f.exists_entry hi
  refine ⟨k, v, p, hentry, ?_, ?_⟩
  · simp only [BtIndex.keyAt, index, hoffset, hhas, hkey, if_true]
  · simp only [DataFile.valueAt, hhas', hvalue, if_true]

theorem warmUpLoop_keyed {step fuel : Nat} (hi : 0 < i) :
    ∃ nodes, (f.index [] (by simp)).warmUpLoop step fuel i = .ok nodes ∧ Keyed f.keys nodes := by
  induction fuel generalizing i with
  | zero => exact ⟨[], rfl, by simp [Keyed]⟩
  | succ fuel ih =>
    rw [BtIndex.warmUpLoop]
    split
    · rename_i hlt
      have hprev : i - 1 < f.offt.length := Nat.lt_of_le_of_lt (Nat.sub_le i 1) hlt
      obtain ⟨k, v, p, hentry, hkey, -⟩ := f.keyAt_index hprev
      obtain ⟨nodes, hnodes, hkeyed⟩ := ih (Nat.add_pos_left hi step)
      refine ⟨⟨k, i - 1⟩ :: nodes, ?_, ?_⟩
      · rw [hkey, hnodes]
        rfl
      · exact forall_mem_cons.mpr ⟨f.getElem?_keys hentry, hkeyed⟩
    · exact ⟨[], rfl, by simp [Keyed]⟩

/-- The keys are shorter than `2 ^ 16` if they are written. -/
def Short (source : NodeSource) : Prop :=
  source = .written → ∀ e ∈ f.entries, e.1.length < 2 ^ 16

theorem loadNodes_keyed (hM : 1 ≤ M) {source : NodeSource} (hshort : f.Short source) :
    ∃ nodes, f.loadNodes M source = some nodes ∧ Keyed f.keys nodes := by
  cases source with
  | written =>
    have hkeyed : Keyed f.keys (buildNodes (addKeys M f.keys 0 []) 0) := fun n hn =>
      (buildNodes_addKeys_keyed M f.keys 0 [] n hn).2
    have hsize := f.length_lt
    have hlength := buildNodes_length_le (addKeys M f.keys 0 []) 0
    rw [addKeys_length, keys_length] at hlength
    refine ⟨_, decodeListNodes_encodeListNodes (by omega) fun n hn => ?_, hkeyed⟩
    have hkey := hkeyed n hn
    have hdi : n.di < f.keys.length := (List.getElem?_eq_some_iff.mp hkey).1
    obtain ⟨e, he, hek⟩ := List.mem_map.mp (List.mem_of_getElem? hkey)
    rw [keys_length] at hdi
    exact ⟨hek ▸ hshort rfl e he, by omega⟩
  | picked =>
    have hstep : 0 < if f.offt.length < M then 1 else M := by split <;> omega
    obtain ⟨nodes, hnodes, hkeyed⟩ := f.warmUpLoop_keyed hstep
    refine ⟨nodes, ?_, hkeyed⟩
    exact congrArg Except.toOption hnodes

/-- The index is opened, with keys of the file in memory. -/
theorem openIndex_eq (hM : 1 ≤ M) {source : NodeSource} (hshort : f.Short source) :
    ∃ mx hmx, f.openIndex M source = some (f.index mx hmx) ∧ Keyed f.keys mx := by
  obtain ⟨mx, hload, hkeyed⟩ := f.loadNodes_keyed hM hshort
  have hmx : ∀ n ∈ mx, n.di < f.offt.length := fun n hn => f.lt_of_keys (hkeyed n hn)
  refine ⟨mx, hmx, ?_, hkeyed⟩
  rw [openIndex, hload]
  exact dif_pos hmx

end KvFile

end Erigon

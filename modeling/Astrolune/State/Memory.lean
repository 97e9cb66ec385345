import Astrolune.Codec.Reads
import Astrolune.State.Transition

namespace Astrolune.State
open Lib Codec Decoder Reader List

/-- A state: always the tree of a map within the limits. -/
structure InMemoryState where
  data : Tree
  canonical : ∃ m : StateMap, Bounded m ∧ data = Tree.fromMap m

namespace InMemoryState

def ofMap (m : StateMap) (h : Bounded m) : InMemoryState := ⟨Tree.fromMap m, m, h, rfl⟩

def new : InMemoryState := ofMap .empty bounded_empty

def map (s : InMemoryState) : StateMap := s.data.toMap

lemma data_eq (s : InMemoryState) : s.data = Tree.fromMap s.map := by
  obtain ⟨data,m,hb,rfl⟩ := s
  exact congrArg Tree.fromMap (Tree.toMap_fromMap m).symm

lemma bounded (s : InMemoryState) : Bounded s.map := by
  obtain ⟨data,m,hb,rfl⟩ := s
  change Bounded (Tree.fromMap m).toMap
  rw [Tree.toMap_fromMap]
  exact hb

@[ext] lemma ext {s s' : InMemoryState} (h : s.map = s'.map) : s = s' := by
  have hd : s.data = s'.data := by rw [s.data_eq,s'.data_eq,h]
  cases s
  cases s'
  cases hd
  rfl

@[simp] lemma map_ofMap (m : StateMap) (h : Bounded m) : (ofMap m h).map = m := Tree.toMap_fromMap m

def get (s : InMemoryState) (key : StateKey) : Option Bytes := s.data.get key

lemma get_eq (s : InMemoryState) (key : StateKey) : s.get key = s.map.get key := by
  rw [get,s.data_eq,Tree.get_fromMap]

section Root

variable (H : Hasher)

def root (s : InMemoryState) : Hash256 := s.data.hash H

variable {s : InMemoryState} {diffs : List StateDiff}

lemma canonical_transition {data : Tree}
    (h : s.data.transition diffs = .ok data) :
    ∃ m : StateMap, Bounded m ∧ data = Tree.fromMap m := by
  rw [s.data_eq] at h
  obtain ⟨hd,hb⟩ := Tree.transition_ok s.bounded h
  exact ⟨_,hb,hd⟩

/-- A transition on a copy: the state that the diffs lead to, if their bounds hold. -/
def prepare (s : InMemoryState) (parent : Hash256) (diffs : List StateDiff) :
    Except StateError InMemoryState :=
  if parent = s.root H then
    match h : s.data.transition diffs with
    | .error e => .error e
    | .ok data => .ok ⟨data, canonical_transition h⟩
  else .error .staleSnapshot

def commitVerified (s : InMemoryState) (parent : Hash256) (diffs : List StateDiff)
    (expected : Hash256) : Except StateError InMemoryState := do
  let next ← s.prepare H parent diffs
  ensure .rootMismatch (next.root H = expected)
  return next

variable {H}

lemma prepare_ok {next : InMemoryState} {par : Hash256}
    (h : s.prepare H par diffs = .ok next) :
    par = s.root H ∧ next.map = applyTo (diffs.flatMap StateDiff.changes) s.map := by
  unfold prepare at h
  split_ifs at h with hp
  refine ⟨hp,?_⟩
  split at h
  · cases h
  · next data hd =>
    cases h
    rw [s.data_eq] at hd
    obtain ⟨ht,_⟩ := Tree.transition_ok s.bounded hd
    change data.toMap = _
    rw [ht,Tree.toMap_fromMap]

end Root

end InMemoryState

def snapshotMagic : Bytes := ascii "ASTSTATE"

def entryBytes (e : StateKey × Bytes) : Bytes := blob e.1 ++ blob e.2

def InMemoryState.exportSnapshot (H : Hasher) (s : InMemoryState) : Bytes :=
  snapshotMagic ++ (u16Bytes 1 ++ (leBytes 8 s.data.len ++ ((s.root H).1 ++
    s.data.entries.flatMap entryBytes)))

def boundedLength (limit : Nat) : Reader StateError Nat := do
  let length ← failingAs .corrupt readU64
  check .limitExceeded (length.toNat ≤ limit)
  return length.toNat

def readBytes (limit : Nat) : Reader StateError Bytes := do
  let length ← boundedLength limit
  failingAs .corrupt (readExact length)

def readEntry : Reader StateError (StateKey × Bytes) := do
  let key ← readBytes maxStateKeyBytes
  let value ← readBytes maxStateValueBytes
  return (key, value)

/-- The first pass of `decode`: bounds and ordering of the keys. -/
def checkEntries : Nat → Option StateKey → Reader StateError Unit
  | 0, _ => pure ()
  | count+1, previous => do
    let key ← readBytes maxStateKeyBytes
    check .corrupt (∀ p ∈ previous, p < key)
    let _ ← readBytes maxStateValueBytes
    checkEntries count (some key)

def readHeader : Reader StateError (Nat × Hash256 × Bytes) := do
  let magic ← failingAs .corrupt (readExact 8)
  check .corrupt (magic = snapshotMagic)
  let version ← failingAs .corrupt readU16
  check .corrupt (version = 1)
  let count ← boundedLength maxStateEntries
  let root ← failingAs .corrupt (readFixed 32)
  let entries ← get
  checkEntries count none
  failingAs .corrupt finish
  return (count, root, entries)

def decodeEntries (bytes : Bytes) : Except StateError (StateMap × Hash256) := do
  ensure .limitExceeded (bytes.length ≤ maxSnapshotBytes)
  let ((count, root, rest), _) ← readHeader.run bytes
  let (entries, _) ← (many readEntry count).run rest
  return (entries.foldl (fun m e => m.insert e.1 e.2) .empty, root)

variable {bs rest : Bytes} {count : Nat} {root : Hash256}

lemma readBytes_ok {lim : Nat} {b : Bytes}
    (h : (readBytes lim).run bs = .ok (b,rest)) :
    b.length ≤ lim ∧ bs.length = 8 + b.length + rest.length := by
  obtain ⟨length,middle,hl,hr⟩ := bind_run_ok.mp h
  obtain ⟨n,after,hn,hre⟩ := bind_run_ok.mp hl
  obtain ⟨_,_,hc,hp⟩ := bind_run_ok.mp hre
  obtain ⟨hli,rfl⟩ := check_run_ok.mp hc
  obtain ⟨rfl,rfl⟩ := pure_run_ok.mp hp
  have hh := length_of_readU64 (failingAs_run_ok.mp hn)
  obtain ⟨hb,rfl⟩ := readExact_run_ok.mp (failingAs_run_ok.mp hr)
  refine ⟨hb ▸ hli,?_⟩
  rw [hh,length_append,Nat.add_assoc]

lemma readEntry_ok {e : StateKey × Bytes}
    (h : readEntry.run bs = .ok (e,rest)) :
    e.1.length ≤ maxStateKeyBytes ∧ e.2.length ≤ maxStateValueBytes ∧
      bs.length = entrySize e.1 e.2 + rest.length := by
  obtain ⟨key,middle,hke,hr⟩ := bind_run_ok.mp h
  obtain ⟨value,after,hva,hp⟩ := bind_run_ok.mp hr
  obtain ⟨rfl,rfl⟩ := pure_run_ok.mp hp
  obtain ⟨hk,hb⟩ := readBytes_ok hke
  obtain ⟨hv,hm⟩ := readBytes_ok hva
  refine ⟨hk,hv,?_⟩
  dsimp only [entrySize]
  omega

lemma many_readEntry_ok {es : List (StateKey × Bytes)}
    (h : (many readEntry count).run bs = .ok (es,rest)) :
    es.length = count ∧
      (∀ e ∈ es, e.1.length ≤ maxStateKeyBytes ∧ e.2.length ≤ maxStateValueBytes) ∧
      bs.length = (es.map fun e => entrySize e.1 e.2).sum + rest.length := by
  induction count generalizing bs es with
  | zero =>
    obtain ⟨rfl,rfl⟩ := pure_run_ok.mp h
    simp
  | succ count ih =>
    obtain ⟨e,middle,he,hr⟩ := bind_run_ok.mp h
    obtain ⟨tail,after,ht,hp⟩ := bind_run_ok.mp hr
    obtain ⟨rfl,rfl⟩ := pure_run_ok.mp hp
    obtain ⟨hk,hv,hb⟩ := readEntry_ok he
    obtain ⟨hc,ha,hm⟩ := ih ht
    refine ⟨by rw [length_cons,hc],?_,?_⟩
    · intro f hf
      rcases mem_cons.mp hf with rfl | hf
      · exact ⟨hk,hv⟩
      · exact ha f hf
    · rw [map_cons,sum_cons]
      omega

lemma collect_bounds (es : List (StateKey × Bytes)) (m : StateMap) :
    let collected := es.foldl (fun m e => m.insert e.1 e.2) m
    (∀ e ∈ collected.entries, e ∈ m.entries ∨ e ∈ es) ∧
      collected.entries.length ≤ m.entries.length + es.length ∧
      collected.total entrySize ≤ m.total entrySize + (es.map fun e => entrySize e.1 e.2).sum := by
  induction es generalizing m with
  | nil => simp
  | cons e rest ih =>
    obtain ⟨hm,hl,ht⟩ := ih (m.insert e.1 e.2)
    have hc := m.total_insert (fun _ _ => 1) e.1 e.2
    have hs := m.total_insert entrySize e.1 e.2
    rw [OrderedMap.total_one,OrderedMap.total_one] at hc
    simp only [foldl_cons,map_cons,sum_cons,length_cons]
    refine ⟨?_,by omega,by omega⟩
    intro f hf
    rcases hm f hf with hf | hf
    · rcases OrderedMap.mem_insertEntry hf with rfl | hf
      · exact .inr mem_cons_self
      · exact .inl hf
    · exact .inr (mem_cons_of_mem e hf)

lemma readHeader_ok {es : Bytes}
    (h : readHeader.run bs = .ok ((count,root,es),rest)) :
    count ≤ maxStateEntries ∧ bs.length = headerBytes + es.length := by
  obtain ⟨magic,m1,hm,h⟩ := bind_run_ok.mp h
  obtain ⟨_,m2,hc,h⟩ := bind_run_ok.mp h
  obtain ⟨_,rfl⟩ := check_run_ok.mp hc
  obtain ⟨version,m3,hv,h⟩ := bind_run_ok.mp h
  obtain ⟨_,m4,hc,h⟩ := bind_run_ok.mp h
  obtain ⟨_,rfl⟩ := check_run_ok.mp hc
  obtain ⟨n,m5,hco,h⟩ := bind_run_ok.mp h
  obtain ⟨top,m6,hro,h⟩ := bind_run_ok.mp h
  obtain ⟨saved,m7,hg,h⟩ := bind_run_ok.mp h
  obtain ⟨_,m8,hw,h⟩ := bind_run_ok.mp h
  obtain ⟨_,m9,hf,hp⟩ := bind_run_ok.mp h
  obtain ⟨hr,rfl⟩ := pure_run_ok.mp hp
  cases hr
  cases hg
  obtain ⟨length,m10,hl,h⟩ := bind_run_ok.mp hco
  obtain ⟨_,m11,hc,hp⟩ := bind_run_ok.mp h
  obtain ⟨hli,rfl⟩ := check_run_ok.mp hc
  obtain ⟨rfl,rfl⟩ := pure_run_ok.mp hp
  obtain ⟨hml,rfl⟩ := readExact_run_ok.mp (failingAs_run_ok.mp hm)
  have h1 := length_of_readU16 (failingAs_run_ok.mp hv)
  have h2 := length_of_readU64 (failingAs_run_ok.mp hl)
  have h3 := length_of_readFixed (failingAs_run_ok.mp hro)
  refine ⟨hli,?_⟩
  rw [length_append,headerBytes]
  omega

lemma decodeEntries_bounded {m : StateMap}
    (h : decodeEntries bs = .ok (m,root)) : Bounded m := by
  simp only [decodeEntries,bind_eq_ok,ensure_eq_ok,pure_ok_iff,Prod.mk.injEq] at h
  obtain ⟨_,hm,⟨⟨count,top,rest⟩,tail⟩,hh,⟨es,left⟩,hen,rfl,rfl⟩ := h
  dsimp only at hen ⊢
  obtain ⟨hc,hl⟩ := readHeader_ok hh
  obtain ⟨hn,ha,hb⟩ := many_readEntry_ok hen
  obtain ⟨hme,hs,ht⟩ := collect_bounds es .empty
  have hem : (OrderedMap.empty : StateMap).total entrySize = 0 := rfl
  have hno : (OrderedMap.empty : StateMap).entries.length = 0 := rfl
  rw [hem] at ht
  rw [hno] at hs
  refine ⟨by omega,fun e he => ?_,fun e he => ?_,?_⟩
  · rcases hme e he with he | he
    · cases he
    · exact (ha e he).1
  · rcases hme e he with he | he
    · cases he
    · exact (ha e he).2
  · unfold encodedSize
    omega

namespace InMemoryState

variable (H : Hasher)

def decodeSnapshot (bytes : Bytes) : Except StateError InMemoryState :=
  match h : decodeEntries bytes with
  | .error e => .error e
  | .ok (m, root) =>
    let state := ofMap m (decodeEntries_bounded h)
    if state.root H = root then .ok state else .error .rootMismatch

def fromSnapshot (bytes : Bytes) (expected : Hash256) : Except StateError InMemoryState := do
  let state ← decodeSnapshot H bytes
  ensure .rootMismatch (state.root H = expected)
  return state

variable {H}

lemma reads_stateBytes {lim : Nat} {b : Bytes} (h : b.length ≤ lim) (hw : lim < 2 ^ 64) :
    Reads (readBytes lim) (blob b) b := by
  have hn : (UInt64.ofNat b.length).toNat = b.length := by
    simp only [UInt64.toNat_ofNat']
    omega
  have hr := Reads.failingAs StateError.corrupt (Reads.readU64 (UInt64.ofNat b.length))
  rw [u64Bytes,hn] at hr
  have hl : Reads (boundedLength lim) (leBytes 8 b.length ++ []) b.length := by
    refine hr.bind (Reads.after (hn.symm ▸ h) ?_)
    rw [hn]
    exact Reads.pure
  rw [append_nil] at hl
  exact hl.bind (Reads.failingAs _ (Reads.readExact rfl))

lemma reads_entry {s : InMemoryState} {e : StateKey × Bytes} (he : e ∈ s.map.entries) :
    Reads readEntry (entryBytes e) e := by
  have hk := reads_stateBytes (s.bounded.keys e he) (by decide)
  have hv := reads_stateBytes (s.bounded.values e he) (by decide)
  exact hk.bind hv.bind_pure

lemma reads_checkEntries {s : InMemoryState} {es : List (StateKey × Bytes)}
    {prev : Option StateKey} (hsu : ∀ e ∈ es, e ∈ s.map.entries)
    (hs : es.Pairwise fun a b => a.1 < b.1)
    (hpr : ∀ p ∈ prev, ∀ e ∈ es, p < e.1) :
    Reads (checkEntries es.length prev) (es.flatMap entryBytes) () := by
  induction es generalizing prev with
  | nil => exact Reads.pure
  | cons e rest ih =>
    obtain ⟨hh,hr⟩ := pairwise_cons.mp hs
    have hm := hsu e mem_cons_self
    have hk := reads_stateBytes (s.bounded.keys e hm) (by decide)
    have hv := reads_stateBytes (s.bounded.values e hm) (by decide)
    have ht : Reads (checkEntries rest.length (some e.1)) (rest.flatMap entryBytes) () :=
      ih (fun f hf => hsu f (mem_cons_of_mem e hf)) hr
        fun p hp f hf => (Option.mem_some.mp hp) ▸ hh f hf
    rw [flatMap_cons,entryBytes,append_assoc]
    exact hk.bind (Reads.after (fun p hp => hpr p hp e mem_cons_self) (hv.bind ht))

lemma entries_eq (s : InMemoryState) : s.data.entries = s.map.entries := by
  rw [s.data_eq,Tree.entries_fromMap]

lemma len_eq (s : InMemoryState) : s.data.len = s.map.entries.length := by
  rw [s.data_eq,Tree.len_fromMap]

lemma length_flatMap_entryBytes (es : List (StateKey × Bytes)) :
    (es.flatMap entryBytes).length = (es.map fun e => entrySize e.1 e.2).sum := by
  induction es with
  | nil => rfl
  | cons e rest ih =>
    simp only [flatMap_cons,length_append,ih,map_cons,sum_cons,entryBytes, entrySize,blob_length]
    omega

lemma length_exportSnapshot (s : InMemoryState) :
    (s.exportSnapshot H).length = encodedSize s.map := by
  have hm : snapshotMagic.length = 8 := by decide
  simp only [exportSnapshot,length_append,hm,u16Bytes_length,leBytes_length,
    (s.root H).2,s.entries_eq,length_flatMap_entryBytes,encodedSize,headerBytes,
    OrderedMap.total]
  omega

lemma run_readHeader (s : InMemoryState) : readHeader.run (s.exportSnapshot H) =
      .ok ((s.map.entries.length,s.root H,s.map.entries.flatMap entryBytes),[]) := by
  have hm : snapshotMagic.length = 8 := by decide
  have hn : (UInt64.ofNat s.map.entries.length).toNat = s.map.entries.length := by
    have := s.bounded.count
    simp only [maxStateEntries] at this
    simp only [UInt64.toNat_ofNat']
    omega
  have hr := Reads.failingAs StateError.corrupt (Reads.readU64 (UInt64.ofNat s.map.entries.length))
  rw [u64Bytes,hn] at hr
  have hco : Reads (boundedLength maxStateEntries)
      (leBytes 8 s.map.entries.length ++ []) s.map.entries.length := by
    refine hr.bind (Reads.after (hn.symm ▸ s.bounded.count) ?_)
    rw [hn]
    exact Reads.pure
  rw [append_nil] at hco
  have hen : Reads (checkEntries s.map.entries.length none) (s.map.entries.flatMap entryBytes) () :=
    reads_checkEntries (s := s) (fun _ he => he) s.map.sorted (by simp)
  have hc := hen []
  rw [append_nil] at hc
  have hf : (failingAs StateError.corrupt finish).run [] = .ok ((),[]) := rfl
  rw [readHeader,exportSnapshot,s.entries_eq,s.len_eq,
    (Reads.failingAs _ (Reads.readExact hm)).run_bind,Reads.run_check rfl,
    (Reads.failingAs _ (Reads.readU16 1)).run_bind,Reads.run_check rfl,hco.run_bind,
    (Reads.failingAs _ (Reads.readFixed _)).run_bind,StateT.run_bind,StateT.run_get,pure_eq_ok,
    ok_bind,StateT.run_bind,hc,ok_bind,StateT.run_bind,hf]
  rfl

lemma decodeEntries_exportSnapshot (s : InMemoryState) :
    decodeEntries (s.exportSnapshot H) = .ok (s.map,s.root H) := by
  have hm := Reads.many (l := s.map.entries) (fun e he => reads_entry (s := s) he) []
  rw [append_nil] at hm
  have hs : (s.exportSnapshot H).length ≤ maxSnapshotBytes :=
    s.length_exportSnapshot ▸ s.bounded.size
  simp only [decodeEntries,ensure_of hs,ok_bind,run_readHeader,hm,
    OrderedMap.collect_entries,pure_eq_ok]

lemma fromSnapshot_exportSnapshot (s : InMemoryState) :
    fromSnapshot H (s.exportSnapshot H) (s.root H) = .ok s := by
  have hd : decodeSnapshot H (s.exportSnapshot H) = .ok s := by
    unfold decodeSnapshot
    split
    · next e he =>
      rw [decodeEntries_exportSnapshot] at he
      cases he
    · next m root he =>
      have heq := he
      rw [decodeEntries_exportSnapshot] at heq
      cases heq
      have hs : ofMap s.map (decodeEntries_bounded he) = s := InMemoryState.ext (by simp)
      simp only [hs,if_true]
  simp only [fromSnapshot,hd,ok_bind,ensure_of,pure_eq_ok]

end InMemoryState
end Astrolune.State

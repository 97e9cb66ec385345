import Astrolune.Storage.Retained

namespace Astrolune.Storage
open Lib Codec State AppendOnlyStorage List

variable {H : Hasher} {loss : Loss} {d d' : LogDisk} {log log' : AppendOnlyStorage}
  {rs : List Record} {height : UInt64}

def batchAt (records : List Record) (height : UInt64) : Option CommitBatch :=
  records.findSome? fun
    | .batch b => if b.block.header.height = height then some b else none
    | .anchor _ _ => none

lemma batchAt_eq_some {b : CommitBatch} (h : batchAt rs height = some b) :
    ∃ fr, Stands rs height.toNat fr b := by
  obtain ⟨fr,r,back,heq,hr,-⟩ := findSome?_eq_some_iff.mp h
  cases r with
  | anchor cp st => cases hr
  | batch b' =>
    obtain ⟨hh,hs⟩ := Option.ite_none_right_eq_some.mp hr
    cases hs
    exact ⟨fr,congrArg UInt64.toNat hh,back,heq⟩

lemma batchAt_eq_none : batchAt rs height = none ↔
    ∀ b, .batch b ∈ rs → b.block.header.height ≠ height := by
  rw [batchAt,findSome?_eq_none_iff]
  constructor
  · intro h b hb heq
    have hn : (if b.block.header.height = height then some b else none) = none := h _ hb
    rw [if_pos heq] at hn
    cases hn
  · intro h r hr
    cases r with
    | anchor cp st => rfl
    | batch b => exact if_neg (h b hr)

lemma Live.file (h : Live H loss d log rs) :
    d.entry .log = some log.file ∧ d.inode log.file = ⟨image H rs,none⟩ := by
  obtain ⟨K,hh⟩ := h.holds
  exact ⟨hh.entry.1,hh.exact⟩

lemma leads_ready {J : LogState → Prop} (h : log.poisoned = false) :
    Leads Done J ready (d,log) () (d,log) :=
  (Leads.read _ _).bind (Leads.give (ensure_of h))

lemma Live.readBatchAt (h : Live H loss d log rs) :
    Leads Done (fun _ => True) (AppendOnlyStorage.readBatchAt H height) (d,log)
      (batchAt rs height) (d,log) := by
  have hr := h.rebuilt
  obtain ⟨he,hin⟩ := h.file
  refine (leads_ready h.clean).bind ((Leads.read _ _).bind ?_)
  cases ha : batchAt rs height with
  | none =>
    have hi : log.index.get height.toNat = none := by
      refine Option.eq_none_iff_forall_ne_some.mpr fun loc hl => ?_
      obtain ⟨fr,b,⟨hh,back,rfl⟩,-⟩ := (index_eq_some hr).mp hl
      exact batchAt_eq_none.mp ha b (by simp) (UInt64.toNat_inj.mp hh)
    simp only [hi]
    exact Leads.pure _ _
  | some b =>
    obtain ⟨fr,hs⟩ := batchAt_eq_some ha
    have hi : log.index.get height.toNat = some (locationOf H fr (.batch b)) :=
      (index_eq_some hr).mpr ⟨fr,b,hs,rfl⟩
    obtain ⟨hh,back,rfl⟩ := hs
    have hw := h.valid.written (.batch b) (by simp)
    have hc : image H (fr ++ [.batch b]) <+: (d.inode log.file).content := by
      rw [hin]
      exact append_cons fr _ back ▸ image_append _ _
    simp only [hi]
    refine (((Disk.leads_openFile he trivial).failingAs _).outer fun _ => id).bind ?_
    refine ((leads_readRecordAt hw hc (Nat.le_refl _) trivial).outer fun _ => id).bind ?_
    refine (Leads.give (ensure_of ⟨rfl,rfl⟩)).bind ?_
    refine (Leads.give (ensure_of (UInt64.toNat_inj.mp hh))).bind ?_
    exact Leads.pure _ _

def firstAnchor : List Record → Ended StorageError (Option (Checkpoint × InMemoryState))
  | [] => .ok none
  | .anchor cp state :: _ => .ok (some (cp, state))
  | .batch _ :: _ => .error .corrupt

lemma Live.readAnchor (h : Live H loss d log rs) :
    (AppendOnlyStorage.readAnchor H).answer (d,log) = firstAnchor rs := by
  obtain ⟨hent,hi⟩ := h.file
  have hen : log.endOffset = (image H rs).length := h.follows.endOffset
  refine Meets.answer (meets_ready h.clean (meets_self ?_))
  cases rs with
  | nil =>
    rw [if_pos (hen.trans length_image_nil)]
    exact Meets.pure rfl
  | cons r back =>
    have hw := h.valid.written r mem_cons_self
    have hc : image H ([] ++ [r]) <+: image H (r :: back) := image_append [r] back
    have hl : (image H ([] ++ [r])).length ≤ log.endOffset := hen ▸ hc.length_le
    have hm : log.endOffset ≠ headerSize := by
      rw [length_image_snoc,length_image_nil] at hl
      unfold frameOverhead at hl
      omega
    have ho : Leads Done (fun _ => True) (Disk.openFile .log) d log.file d :=
      Disk.leads_openFile hent trivial
    have hr : Leads Done (fun _ => True) (readRecordAt H log.file headerSize log.endOffset
        (initialTip H)) d (r,locationOf H [] r) d := by
      have hst : headerSize = (image H []).length := length_image_nil.symm
      rw [hst]
      exact leads_readRecordAt hw (by rw [hi]; exact hc) hl trivial
    rw [if_neg hm]
    refine Leads.outer_andThen (ho.failingAs _) ?_ (fun _ _ hf => absurd hf not_canFail)
      (fun _ hs => absurd hs not_canStop)
    refine Leads.outer_andThen hr ?_ (fun _ _ hf => absurd hf not_canFail)
      (fun _ hs => absurd hs not_canStop)
    cases r with
    | anchor cp st =>
      refine meets_give (fun _ _ => Meets.pure rfl) (fun e he => ?_)
      rw [ensure_of hw.1.2] at he
      cases he
    | batch b => exact Meets.fail rfl

lemma Live.readFinalized (h : Live H loss d log rs) :
    (AppendOnlyStorage.readFinalized H height).answer (d,log) =
      .ok ((batchAt rs height).map fun b => (b.block,b.finalityCertificate)) := by
  have hr : Leads Done (fun _ => True) (AppendOnlyStorage.readFinalized H height) (d,log) _
    (d,log) := h.readBatchAt.bind (Leads.pure _ _)
  exact hr.answer

def CommitBatch.receipts (b : CommitBatch) : Option StoredReceipts :=
  b.effects.map fun effects => ⟨b.block.header, b.finalityCertificate, effects⟩

lemma Live.readReceipts (h : Live H loss d log rs) :
    (AppendOnlyStorage.readReceipts H height).answer (d,log) =
      .ok ((batchAt rs height).bind CommitBatch.receipts) := by
  have hr : Leads Done (fun _ => True) (AppendOnlyStorage.readReceipts H height) (d,log) _
    (d,log) := h.readBatchAt.bind (Leads.pure _ _)
  exact hr.answer

lemma Live.readStateAt (h : Live H loss d log rs) :
    (AppendOnlyStorage.readStateAt H height).answer (d,log) =
      (Io.give (log.history.read H height log.checkpoint log.state) : DiskIo _).answer d := by
  refine Meets.answer (meets_ready h.clean (meets_self ?_))
  refine Meets.give ?_ ?_
  · intro a ha
    rw [ha]
    rfl
  · intro e he
    rw [he]
    rfl

/-- The same is read from two logs. -/
structure Agree (H : Hasher) (s s' : LogState) : Prop where
  checkpoint : s'.2.checkpoint = s.2.checkpoint
  state : s'.2.state = s.2.state
  retainedFloor : s'.2.retainedFloor = s.2.retainedFloor
  historyFloor : s'.2.historyFloor = s.2.historyFloor
  blockCount : s'.2.blockCount = s.2.blockCount
  retention : s'.2.retention = s.2.retention
  finalized : ∀ height, (readFinalized H height).answer s' = (readFinalized H height).answer s
  receipts : ∀ height, (readReceipts H height).answer s' = (readReceipts H height).answer s
  stateAt : ∀ height, (readStateAt H height).answer s' = (readStateAt H height).answer s
  anchor : (AppendOnlyStorage.readAnchor H).answer s' =
    (AppendOnlyStorage.readAnchor H).answer s
  transaction : ∀ id, s'.2.transactionLocation id = s.2.transactionLocation id

lemma Live.agree {loss' : Loss} (h : Live H loss d log rs)
    (h' : Live H loss' d' log' rs) (hre : log'.retention = log.retention) :
    Agree H (d,log) (d',log') := by
  have hco : log'.core = log.core := Except.ok.inj (h'.rebuilt.symm.trans h.rebuilt)
  have hc : log'.checkpoint = log.checkpoint :=
    show log'.core.checkpoint = log.core.checkpoint by rw [hco]
  have hs : log'.state = log.state := show log'.core.state = log.core.state by rw [hco]
  have hh : log'.history = log.history := show log'.core.history = log.core.history by rw [hco]
  have hr {α : Type} (f : AppendOnlyStorage → α) : f log'.core = f log.core := by rw [hco]
  exact
    { checkpoint := hc
      state := hs
      retainedFloor := hr AppendOnlyStorage.retainedFloor
      historyFloor := hr AppendOnlyStorage.historyFloor
      blockCount := hr AppendOnlyStorage.blockCount
      retention := hre
      finalized := fun height => by rw [h'.readFinalized,h.readFinalized]
      receipts := fun height => by rw [h'.readReceipts,h.readReceipts]
      stateAt := fun height => by
        rw [h'.readStateAt,h.readStateAt,hc,hs,hh]
        cases log.history.read H height log.checkpoint log.state <;> rfl
      anchor := by rw [h'.readAnchor,h.readAnchor]
      transaction := fun id => hr (AppendOnlyStorage.transactionLocation · id) }

structure Above (H : Hasher) (floor : UInt64) (s s' : LogState) :
    Prop where
  checkpoint : s'.2.checkpoint = s.2.checkpoint
  state : s'.2.state = s.2.state
  retainedFloor : s'.2.retainedFloor = some floor
  finalized : ∀ height, floor < height →
    (readFinalized H height).answer s' = (readFinalized H height).answer s
  receipts : ∀ height, floor < height →
    (readReceipts H height).answer s' = (readReceipts H height).answer s
  stateAt : ∀ height, floor ≤ height →
    (readStateAt H height).answer s' = (readStateAt H height).answer s
  transaction : ∀ id, s'.2.transactionLocation id =
    (s.2.transactionLocation id).filter fun place => floor < place.1
  anchor : (AppendOnlyStorage.readAnchor H).answer s' = (readStateAt H floor).answer s
  finalizedBelow : ∀ height, height ≤ floor → (readFinalized H height).answer s' = .ok none
  receiptsBelow : ∀ height, height ≤ floor → (readReceipts H height).answer s' = .ok none

lemma Agree.above {fl : UInt64} {s t u : LogState} (h : Agree H s t)
    (h' : Above H fl t u) : Above H fl s u where
  checkpoint := h'.checkpoint.trans h.checkpoint
  state := h'.state.trans h.state
  retainedFloor := h'.retainedFloor
  finalized height hh := (h'.finalized height hh).trans (h.finalized height)
  receipts height hh := (h'.receipts height hh).trans (h.receipts height)
  stateAt height hh := (h'.stateAt height hh).trans (h.stateAt height)
  transaction id := by rw [h'.transaction,h.transaction]
  anchor := h'.anchor.trans (h.stateAt fl)
  finalizedBelow := h'.finalizedBelow
  receiptsBelow := h'.receiptsBelow

section Replaced

variable {fl : UInt64} {head cp : Checkpoint} {state : InMemoryState} {bts : List CommitBatch}
  {old : List Record}

lemma batchAt_append (fr back : List Record) :
    batchAt (fr ++ back) height = (batchAt fr height).or (batchAt back height) :=
  findSome?_append

lemma Split.batchAt_replacing (h : Split H old log cp state bts) :
    batchAt (replacing cp state bts) height =
      if cp.height < height then batchAt old height else none := by
  have hsk : batchAt (replacing cp state bts) height = batchAt (bts.map .batch) height := rfl
  obtain ⟨fr,pre,rfl,hf,hc,rfl⟩ := h.parts
  rw [hsk]
  split
  · next ha =>
    have hno : batchAt fr height = none := by
      refine batchAt_eq_none.mpr fun b hb heq => ?_
      obtain ⟨a,c,hsp⟩ := append_of_mem hb
      have hi := (index_eq_some hf).mpr ⟨a,b,⟨rfl,c,hsp⟩,rfl⟩
      have hl := ((follows_of_rebuild hf).upto cp hc).index _ _ hi
      rw [heq] at hl
      exact absurd (UInt64.lt_iff_toNat_lt.mp ha) (Nat.not_lt.mpr hl)
    rw [batchAt_append,hno,Option.none_or]
  · next hbe =>
    refine batchAt_eq_none.mpr fun b hb heq => hbe ?_
    obtain ⟨b',hb',hs⟩ := mem_map.mp hb
    cases hs
    have hst : fr ++ bts.map .batch ≠ [] := by
      rintro hn
      rw [(append_eq_nil_iff.mp hn).1] at hf
      cases hf
      cases hc
    obtain ⟨top,ht⟩ := Option.isSome_iff_exists.mp ((follows_of_rebuild h.whole).started.mpr hst)
    obtain ⟨batches',hm,-,hh⟩ := rebuild_heights hf hc h.whole ht
    have hs : bts = batches' := map_injective_iff.mpr (fun _ _ h => by cases h; rfl) hm
    have hme : b.block.header.height.toNat ∈ batches'.map (·.block.header.height.toNat) :=
      mem_map.mpr ⟨b,hs ▸ hb',rfl⟩
    rw [hh,mem_range'_1] at hme
    rw [UInt64.lt_iff_toNat_lt,← heq]
    omega

lemma floor_le_of_read {hist : StateHistory} {fd : Checkpoint × InMemoryState}
    (h : hist.read H fl (some head) state = .ok (some fd)) :
    hist.floor head.height ≤ fl := by
  rw [StateHistory.read] at h
  split at h
  · cases h
  · next ho =>
    rw [not_or] at ho
    exact UInt64.not_lt.mp ho.2

lemma Shrunk.above {ret : Option RetentionRecord} (h : Live H loss d log old)
    (hs : Shrunk H log old fl rs ret) {loss' : Loss}
    (h' : Live H loss' d' log' rs) : Above H fl (d,log) (d',log') := by
  obtain ⟨top,cp,state,bts,hc,rfl,hr,rfl,-⟩ := hs
  obtain ⟨short,hsh,hsa⟩ := hc.split.short
  have hco : short = log'.core := Except.ok.inj (hsh.symm.trans h'.rebuilt)
  subst hco
  obtain ⟨head,hh⟩ : ∃ head, log.checkpoint = some head := by
    obtain ⟨c,hc,-⟩ := hsa.above
    exact ⟨c,hc⟩
  have hch : log'.checkpoint = log.checkpoint := hsa.checkpoint
  have hst : log'.state = log.state := hsa.state
  have hhi : log'.history = log.history.truncateBelow cp.height := hsa.history
  have ht : log'.transactions = log.transactions.prune (cp.height + 1) := hsa.transactions
  have hf : log.history.floor head.height ≤ cp.height := floor_le_of_read (hh ▸ hr)
  refine
    { checkpoint := hch
      state := hst
      retainedFloor := by
        show log'.core.anchor.map (·.height) = _
        rw [hsa.anchor]
        rfl
      finalized := fun height hhe => by
        rw [h'.readFinalized,h.readFinalized,hc.split.batchAt_replacing,if_pos hhe]
      receipts := fun height hhe => by
        rw [h'.readReceipts,h.readReceipts,hc.split.batchAt_replacing,if_pos hhe]
      stateAt := fun height hhe => by
        have hsa : log'.history.read H height log'.checkpoint log'.state =
            log.history.read H height log.checkpoint log.state := by
          rw [hhi,hch,hst]
          have hcu := read_truncateBelow h.rebuilt hh hf hhe
          exact hcu
        rw [h'.readStateAt,h.readStateAt,hsa]
        cases log.history.read H height log.checkpoint log.state <;> rfl
      transaction := fun id => ?_
      anchor := by
        rw [h'.readAnchor,h.readStateAt,hr]
        rfl
      finalizedBelow := fun height hhe => by
        rw [h'.readFinalized,hc.split.batchAt_replacing,if_neg (UInt64.not_lt.mpr hhe)]
        rfl
      receiptsBelow := fun height hhe => by
        rw [h'.readReceipts,hc.split.batchAt_replacing,if_neg (UInt64.not_lt.mpr hhe)]
        rfl }
  have hp : ∀ place : Place, decide (cp.height + 1 ≤ place.1) = decide (cp.height < place.1) := by
    intro place
    rw [decide_eq_decide,UInt64.le_iff_toNat_le,UInt64.lt_iff_toNat_lt,toNat_succ hc.split.room]
    omega
  show log'.transactions.byId.get id = (log.transactions.byId.get id).filter _
  rw [ht,RecentTransactions.prune,OrderedMap.get_retain]
  congr 1
  exact funext hp

end Replaced

section Tidy

variable {w : World} {ts : List Turn} {c : Call} {full fd : List Record}

/-- Every operation of the step does what it is asked to. -/
def Step.Works : Step → Prop
  | .start turns | .call _ turns => ∀ t ∈ turns, t = .done
  | .kill => True
  | .powerLoss _ _ => False

/-- No block that the step commits has the zero hash, which stands for a missing block. -/
def Step.Nonzero (H : Hasher) : Step → Prop
  | .call c _ => c.Nonzero H
  | .start _ | .kill | .powerLoss _ _ => True

def Tidy (H : Hasher) (w : World) : Prop :=
  (∃ log full found, w.log = some log ∧ Live H inOrder w.disk log found ∧
    Stems H full found) ∨
  (w.log = none ∧ Safe H inOrder w.disk fun found _ => ∃ full, Stems H full found)

lemma Tidy.safe (h : Tidy H w) : Safe H inOrder w.disk fun fd _ => ∃ full, Stems H full fd := by
  rcases h with ⟨log,full,fd,-,hl,hst⟩ | ⟨-,hs⟩
  · exact hl.safe ⟨full,hst⟩
  · exact hs

variable {s : LogState} {b : CommitBatch}

lemma Goes.live (h : Goes H Done full s) : ∃ fd, Live H inOrder s.1 s.2 fd ∧ Stems H full fd := by
  rcases h with hl | ⟨hf,-⟩ | ⟨hf,-⟩
  · exact hl
  · exact absurd hf not_canFail
  · exact absurd hf not_canFail

lemma Tidy.call (h : Tidy H w) (hc : c.Nonzero H) (ht : ∀ t ∈ ts, t = .done) :
    Tidy H (w.call H c ts) := by
  rcases h with ⟨log,full,fd,hlo,hl,hst⟩ | ⟨hlo,hsa⟩
  · refine World.call_of (I := Tidy H) hlo ht (meets_call hl hst hc) ?_ ?_ ?_
    · intro s hs
      obtain ⟨found',hl',hs'⟩ := Goes.live hs
      exact .inl ⟨s.2,_,found',rfl,hl',hs'⟩
    · intro e s hs
      rcases hs with hs | ⟨hf,-⟩
      · obtain ⟨found',hl',hs'⟩ := Goes.live hs
        exact .inl ⟨s.2,_,found',rfl,hl',hs'⟩
      · exact absurd hf not_canFail
    · exact fun s hs => absurd hs.1 not_canStop
  · rw [World.call_none hlo]
    exact .inr ⟨hlo,hsa⟩

lemma Tidy.step {s : Step} (h : Tidy H w) (hs : s.Works) (hn : s.Nonzero H) :
    Tidy H (w.step H s) := by
  cases s with
  | start ts =>
    cases hlo : w.log with
    | some log =>
      show Tidy H (w.start H ts)
      rw [World.start_some hlo]
      exact h
    | none =>
      refine World.start_of (I := Tidy H) hlo hs h.safe.1 ?_ (fun _ _ => False.elim)
        (fun _ => False.elim)
      intro log d ⟨fd,⟨full,hst⟩,hl,_⟩
      exact .inl ⟨log,full,fd,rfl,hl,hst⟩
  | call c ts => exact h.call hn hs
  | kill => exact .inr ⟨rfl,h.safe⟩
  | powerLoss mask left => exact hs.elim

lemma Compacted.above {s' : LogState} {next : AppendOnlyStorage}
    (hs : s.2.retention = next.retention) (h : Live H inOrder s.1 s.2 fd)
    (h' : Compacted H Done next fd s') (hn : Live H inOrder d next fd) :
    Agree H s s' ∨ ∃ fl, Above H fl s s' := by
  rcases h' with ⟨hr,hl⟩ | ⟨fl,rs,hsh,hl⟩ | ⟨hf,-⟩ | ⟨hf,-⟩
  · exact .inl (h.agree hl (hr.trans hs.symm))
  · exact .inr ⟨fl,(h.agree hn hs.symm).above (hsh.above hn hl)⟩
  · exact absurd hf not_canFail
  · exact absurd hf not_canFail

namespace FirstBatch

def batch : CommitBatch := TwoStops.batch 0 Hash256.zero

def world : World :=
  (World.fresh residueHash).run residueHash
    [.call (.commit batch) [], .call (.prune 0) []]

end FirstBatch

namespace Churn

/-- Every block overwrites one value, adds a key and deletes the one that the block before added. -/
def changes (n : Nat) : List StateDiff :=
  [⟨[.put [0] [UInt8.ofNat n], .put [1, UInt8.ofNat n] [1], .delete [1, UInt8.ofNat (n - 1)]]⟩]

def grow (chain : InMemoryState × List CommitBatch) (n : Nat) : InMemoryState × List CommitBatch :=
  let state := ((chain.1.prepare residueHash (chain.1.root residueHash) (changes n)).toOption).getD
    chain.1
  let parent := match chain.2 with
    | [] => TwoStops.genesis.block
    | b :: _ => b.block.header.computeHash residueHash
  let b := TwoStops.batch (UInt64.ofNat n) parent
  let header := { b.block.header with stateRoot := state.root residueHash }
  (state, { b with block := { b.block with header }, stateDiffs := changes n } :: chain.2)

def batches : List CommitBatch := ((range' 1 9).foldl grow (InMemoryState.new, [])).2.reverse

def calls : List (Call × List Turn) :=
  (.installAnchor TwoStops.genesis InMemoryState.new, []) ::
    batches.map (fun b => (.commit b, [])) ++ [(.prune 1, [])]

def steps : List Step := calls.map fun c => .call c.1 c.2

def world : World :=
  (World.fresh residueHash).run residueHash steps

/-- The compaction removed the first block, and the state is that of the last one. -/
abbrev Left (live : AppendOnlyStorage) : Prop :=
  live.poisoned = false ∧ live.retainedFloor = some 1 ∧ live.historyFloor = some 1 ∧
    live.checkpoint.map (·.height) = some 9 ∧ live.state.get [0] = some [9] ∧
    live.state.get [1, 8] = none

lemma compacted : ∃ live, world.log = some live ∧ Left live := by
  have ho : world.log.any (Left ·) = true := by decide +kernel
  obtain ⟨live,hl,hd⟩ := (Option.any_eq_true _ _).mp ho
  exact ⟨live,hl,of_decide_eq_true hd⟩

end Churn

end Tidy
end Astrolune.Storage

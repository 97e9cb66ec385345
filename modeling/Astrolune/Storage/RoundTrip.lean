import Astrolune.Storage.Record

namespace Astrolune.Storage
open Lib Codec State List

variable {H : Hasher}

/-- A writer added `bytes` and stayed within the size of a record. -/
structure Appends (out out' bytes : Bytes) : Prop where
  content : out' = out ++ bytes
  bounded : out.length ≤ maxRecordBytes → out'.length ≤ maxRecordBytes

namespace Appends

lemma nil (out : Bytes) : Appends out out [] := ⟨by simp,id⟩

lemma trans {a b c x y : Bytes} (h : Appends a b x) (h' : Appends b c y) : Appends a c (x ++ y) :=
  ⟨by rw [h'.content,h.content,append_assoc],fun ha => h'.bounded (h.bounded ha)⟩

end Appends

variable {out out' bs effects : Bytes} {b : CommitBatch}

lemma write_ok (h : write out bs = .ok out') : Appends out out' bs := by
  simp only [write,bind_eq_ok,ensure_eq_ok,pure_ok_iff] at h
  obtain ⟨_,hr,rfl⟩ := h
  refine ⟨rfl,fun ho => ?_⟩
  rw [length_append]
  omega

lemma writeBlob_ok (h : writeBlob out bs = .ok out') : Appends out out' (blob bs) := by
  simp only [writeBlob,bind_eq_ok] at h
  obtain ⟨middle,hl,hb⟩ := h
  exact (write_ok hl).trans (write_ok hb)

lemma foldlM_appends {α : Type} {f : Bytes → α → Except StorageError Bytes} {encode : α → Bytes}
    (hf : ∀ out out' a, f out a = .ok out' → Appends out out' (encode a)) {l : List α}
    (h : l.foldlM f out = .ok out') : Appends out out' (l.flatMap encode) := by
  induction l generalizing out with
  | nil =>
    cases h
    exact .nil _
  | cons a rest ih =>
    rw [foldlM_cons,bind_eq_ok] at h
    obtain ⟨middle,ha,hr⟩ := h
    exact (hf _ _ _ ha).trans (ih hr)

def changeBytes : StateChange → Bytes
  | .put key value => [1] ++ (blob key ++ blob value)
  | .delete key => [2] ++ blob key

def Encodable : StateChange → Prop
  | .put key value => key.length ≤ maxStateKeyBytes ∧ value.length ≤ maxStateValueBytes
  | .delete key => key.length ≤ maxStateKeyBytes

lemma writeChange_ok {change : StateChange} (h : writeChange out change = .ok out') :
    Appends out out' (changeBytes change) ∧ Encodable change := by
  cases change with
  | put key value =>
    simp only [writeChange,bind_eq_ok,ensure_eq_ok] at h
    obtain ⟨_,hk,m1,ht,m2,hb,_,hv,hl⟩ := h
    exact ⟨(write_ok ht).trans ((writeBlob_ok hb).trans (writeBlob_ok hl)),hk,hv⟩
  | delete key =>
    simp only [writeChange,bind_eq_ok,ensure_eq_ok] at h
    obtain ⟨_,hk,m1,ht,hb⟩ := h
    exact ⟨(write_ok ht).trans (writeBlob_ok hb),hk⟩

lemma foldlM_writeChange_ok {cs : List StateChange}
    (h : cs.foldlM writeChange out = .ok out') : ∀ change ∈ cs, Encodable change := by
  induction cs generalizing out with
  | nil => simp
  | cons change rest ih =>
    rw [foldlM_cons,bind_eq_ok] at h
    obtain ⟨middle,hch,hr⟩ := h
    intro c hc
    rcases mem_cons.mp hc with rfl | hc
    · exact (writeChange_ok hch).2
    · exact ih hr c hc

def diffBytes (diff : StateDiff) : Bytes :=
  leBytes 8 diff.changes.length ++ diff.changes.flatMap changeBytes

def changeCount (diffs : List StateDiff) : Nat := (diffs.map (·.changes.length)).sum

lemma foldlM_writeDiff_ok {diffs : List StateDiff} {acc acc' : Bytes × Nat}
    (h : diffs.foldlM writeDiff acc = .ok acc') :
    Appends acc.1 acc'.1 (diffs.flatMap diffBytes) ∧ acc'.2 = acc.2 + changeCount diffs ∧
      (acc.2 ≤ maxChanges → acc'.2 ≤ maxChanges) ∧
      ∀ diff ∈ diffs, ∀ change ∈ diff.changes, Encodable change := by
  induction diffs generalizing acc with
  | nil =>
    cases h
    exact ⟨.nil _,by simp [changeCount],id,by simp⟩
  | cons diff rest ih =>
    rw [foldlM_cons,bind_eq_ok] at h
    obtain ⟨middle,hdi,hr⟩ := h
    simp only [writeDiff,bind_eq_ok,ensure_eq_ok,okOr_eq_ok,checkedAdd64_eq_some,pure_ok_iff] at hdi
    obtain ⟨tot,⟨rfl,_⟩,_,ht,m1,hn,m2,hch,rfl⟩ := hdi
    obtain ⟨hap,hco,hm,ha⟩ := ih hr
    have ho : ∀ out out' change, writeChange out change = .ok out' →
      Appends out out' (changeBytes change) := fun _ _ _ hc => (writeChange_ok hc).1
    have hw : Appends acc.1 m2 (diffBytes diff) := (write_ok hn).trans (foldlM_appends ho hch)
    refine ⟨hw.trans hap,?_,fun _ => hm ht,?_⟩
    · rw [hco,changeCount,changeCount,map_cons,sum_cons,Nat.add_assoc]
    · intro d hd
      rcases mem_cons.mp hd with rfl | hd
      · exact foldlM_writeChange_ok hch
      · exact ha d hd

/-- What `validate_block` establishes about each transaction. -/
lemma foldlM_checkTransaction_ok {txs : List Transaction} {size size' : Nat}
    (h : txs.foldlM checkTransaction size = .ok size') :
    ∀ tx ∈ txs, tx.Encodable ∧ tx.toBytes.length ≤ maxTransactionBytes := by
  induction txs generalizing size with
  | nil => simp
  | cons tx rest ih =>
    rw [foldlM_cons,bind_eq_ok] at h
    obtain ⟨middle,htx,hr⟩ := h
    simp only [checkTransaction,bind_eq_ok,ensure_eq_ok] at htx
    obtain ⟨_,hv,_,⟨hli,hk,hp,hl⟩,_⟩ := htx
    intro t ht
    rcases mem_cons.mp ht with rfl | ht
    · exact ⟨⟨hv,hli,hk,hp⟩,Transaction.toBytes_length_le hl (by decide)⟩
    · exact ih hr t ht

structure Encoded (H : Hasher) (b : CommitBatch) (bytes effects : Bytes) : Prop where
  content : bytes = [if b.effects.isSome then 2 else 1] ++ (b.block.header.canonicalBytes ++
    (leBytes 8 b.block.transactions.length ++
      (b.block.transactions.flatMap (blob ·.toBytes) ++ (blob b.finalityCertificate ++
        (leBytes 8 b.stateDiffs.length ++ (b.stateDiffs.flatMap diffBytes ++ effects))))))
  bounded : bytes.length ≤ maxRecordBytes
  valid : validateBlock H b.block b.finalityCertificate = .ok ()
  count : b.block.transactions.length ≤ maxTransactions
  certificate : b.finalityCertificate.length ≤ maxCertificateBytes
  transactions : ∀ tx ∈ b.block.transactions,
    tx.Encodable ∧ tx.toBytes.length ≤ maxTransactionBytes
  diffs : b.stateDiffs.length ≤ maxChanges
  total : changeCount b.stateDiffs ≤ maxChanges
  changes : ∀ diff ∈ b.stateDiffs, ∀ change ∈ diff.changes, Encodable change
  effects : match b.effects with
    | none => effects = []
    | some e => e.validate H b.block = .ok () ∧
        ∃ encoded, e.toBytes = .ok encoded ∧ effects = blob encoded

lemma encodeBatch_ok (h : encodeBatch H b = .ok bs) : ∃ effects, Encoded H b bs effects := by
  simp only [encodeBatch,bind_eq_ok,ensure_eq_ok] at h
  obtain ⟨_,hv,_,he,m1,hh,m2,hco,m3,htxs,m4,hce,_,hdi,m5, hn,⟨m6,tot⟩,hwr,hl⟩ := h
  have hbl := hv
  simp only [validateBlock,bind_eq_ok,ensure_eq_ok] at hbl
  obtain ⟨_,⟨htx,hc⟩,_,hche,_⟩ := hbl
  obtain ⟨hd,ht,hm,hch⟩ := foldlM_writeDiff_ok hwr
  have hf := (write_ok hh).trans ((write_ok hco).trans
    ((foldlM_appends (fun _ _ _ hw => writeBlob_ok hw) htxs).trans ((writeBlob_ok hce).trans
      ((write_ok hn).trans hd))))
  have hs : ∀ tag : UInt8, [tag].length ≤ maxRecordBytes := by
    intro tag
    rw [length_singleton]
    decide
  have ht' : changeCount b.stateDiffs ≤ maxChanges := by
    have := hm (Nat.zero_le _)
    rwa [ht,Nat.zero_add] at this
  cases hb : b.effects with
  | none =>
    rw [hb] at hl
    cases hl
    refine ⟨[],⟨?_,hf.bounded (hs _),hv,htx,hc, foldlM_checkTransaction_ok hche,hdi,ht',hch,by rw [hb]⟩⟩
    rw [hf.content]
    simp
  | some e =>
    rw [hb] at hl he
    simp only [writeEffects,bind_eq_ok] at hl
    obtain ⟨encoded,hen,hblo⟩ := hl
    have ha := hf.trans (writeBlob_ok hblo)
    refine ⟨blob encoded,⟨?_,ha.bounded (hs _),hv,htx,hc,
      foldlM_checkTransaction_ok hche,hdi,ht',hch,?_⟩⟩
    · rw [ha.content]
      simp
    · rw [hb]
      exact ⟨he,encoded,hen,rfl⟩

lemma reads_number {n lim : Nat} (h : n ≤ lim) (hw : lim < 2 ^ 64) :
    Reads (readLength lim) (leBytes 8 n) n := by
  have hn : (UInt64.ofNat n).toNat = n := by
    simp only [UInt64.toNat_ofNat']
    omega
  have hr := Reads.readU64 (UInt64.ofNat n)
  rw [u64Bytes,hn] at hr
  have hl : Reads (pure (UInt64.ofNat n).toNat : Decoder Nat) [] n := by
    rw [hn]
    exact Reads.pure
  exact hr.bind_end (Reads.after (hn.symm ▸ h) hl)

lemma reads_blob {lim : Nat} (h : bs.length ≤ lim) (hw : lim < 2 ^ 64) :
    Reads (readBlob lim) (blob bs) bs :=
  (reads_number h hw).bind (Reads.readExact rfl)

lemma reads_transaction {tx : Transaction} (h : tx.Encodable)
    (hl : tx.toBytes.length ≤ maxTransactionBytes) :
    Reads readTransaction (blob tx.toBytes) tx :=
  (reads_blob hl (by decide)).bind_end (Reads.give (Transaction.decode_toBytes h))

lemma length_toBytes (tx : Transaction) : 150 ≤ tx.toBytes.length := by
  have hm : (ascii "ALTX").length = 4 := by decide
  simp only [Transaction.toBytes,Transaction.encodeUnsigned,Resources.bytes,length_append,
    length_singleton,u32Bytes_length,u64Bytes_length,hm,tx.sender.2,tx.signature.2]
  omega

lemma length_flatMap_ge {α : Type} {encode : α → Bytes} {unit : Nat} {l : List α}
    (h : ∀ a ∈ l, unit ≤ (encode a).length) : l.length * unit ≤ (l.flatMap encode).length := by
  induction l with
  | nil => simp
  | cons a rest ih =>
    have ha := h a mem_cons_self
    have hr := ih fun b hb => h b (mem_cons_of_mem a hb)
    rw [length_cons,flatMap_cons,length_append,Nat.add_mul]
    omega

lemma le_remaining {count unit remaining : Nat} (hu : 0 < unit)
    (h : count * unit ≤ bs.length) (hr : bs.length ≤ remaining) :
    count ≤ remaining / unit := (Nat.le_div_iff_mul_le hu).mpr (h.trans hr)

lemma reads_block (h : Encoded H b bs effects) :
    Reads readBlock (b.block.header.canonicalBytes ++ (leBytes 8 b.block.transactions.length ++
      b.block.transactions.flatMap (blob ·.toBytes))) b.block := by
  have hh : Reader.whole BlockHeader.read b.block.header.canonicalBytes =
      .ok b.block.header := b.block.header.reads_header.whole
  have htx : Reads (Reader.many readTransaction b.block.transactions.length)
      (b.block.transactions.flatMap (blob ·.toBytes)) b.block.transactions :=
    Reads.many fun tx ht => reads_transaction (h.transactions tx ht).1 (h.transactions tx ht).2
  have hro : b.block.transactions.length * 150 ≤
      (b.block.transactions.flatMap (blob ·.toBytes)).length := by
    refine length_flatMap_ge fun tx _ => ?_
    have := length_toBytes tx
    rw [blob_length]
    omega
  refine (Reads.readExact b.block.header.canonicalBytes_length).bind
    ((Reads.give hh).bind_nil ((reads_number h.count (by decide)).bind ?_))
  refine Reads.remaining fun remaining hr => ?_
  exact Reads.after (le_remaining (by decide) hro hr) htx.bind_pure

lemma reads_change {change : StateChange} (h : Encodable change) :
    Reads readChange (changeBytes change) change := by
  cases change with
  | put key value =>
    exact (Reads.readU8 1).bind ((reads_blob h.1 (by decide)).bind
      (reads_blob h.2 (by decide)).bind_pure)
  | delete key =>
    exact (Reads.readU8 2).bind ((reads_blob h (by decide)).bind_end Reads.pure)

lemma length_changeBytes (change : StateChange) : 9 ≤ (changeBytes change).length := by
  cases change with
  | put key value =>
    simp only [changeBytes,length_append,length_singleton,blob_length]
    omega
  | delete key =>
    simp only [changeBytes,length_append,length_singleton,blob_length]
    omega

lemma reads_diffs {diffs : List StateDiff} {tot : Nat}
    (ha : ∀ diff ∈ diffs, ∀ change ∈ diff.changes, Encodable change)
    (ht : tot + changeCount diffs ≤ maxChanges) :
    Reads (readDiffs diffs.length tot) (diffs.flatMap diffBytes) diffs := by
  induction diffs generalizing tot with
  | nil => exact Reads.pure
  | cons diff rest ih =>
    rw [changeCount,map_cons,sum_cons] at ht
    change tot + (diff.changes.length + changeCount rest) ≤ maxChanges at ht
    have hn : Reads (readLength (maxChanges - tot)) (leBytes 8 diff.changes.length)
        diff.changes.length :=
      reads_number (by omega) ((Nat.sub_le _ _).trans_lt (by decide))
    have hch : Reads (Reader.many readChange diff.changes.length)
        (diff.changes.flatMap changeBytes) diff.changes :=
      Reads.many fun change hc => reads_change (ha diff mem_cons_self change hc)
    have hre : Reads (readDiffs rest.length (tot + diff.changes.length))
        (rest.flatMap diffBytes) rest :=
      ih (fun d hd => ha d (mem_cons_of_mem diff hd)) (by omega)
    have hro : diff.changes.length * 9 ≤ (diff.changes.flatMap changeBytes).length :=
      length_flatMap_ge fun change _ => length_changeBytes change
    rw [flatMap_cons,diffBytes,append_assoc]
    refine hn.bind (Reads.remaining fun remaining hr => ?_)
    rw [length_append] at hr
    exact Reads.after (le_remaining (by decide) hro (by omega)) (hch.bind hre.bind_pure)

lemma length_diffBytes (diff : StateDiff) : 8 ≤ (diffBytes diff).length := by
  rw [diffBytes,length_append,leBytes_length]
  omega

lemma reads_effects (h : Encoded H b bs effects) :
    Reads (readEffects H b.block (if b.effects.isSome then 2 else 1)) effects b.effects := by
  have he := h.effects
  cases hb : b.effects with
  | none =>
    rw [hb] at he
    subst he
    exact Reads.pure
  | some e =>
    rw [hb] at he
    obtain ⟨hv,encoded,hen,rfl⟩ := he
    obtain ⟨hl,hd⟩ := BlockEffects.fromBytes_toBytes hen
    have hr : failAs DecodeError.nonCanonical (BlockEffects.fromBytes encoded) = .ok e := by
      rw [hd,failAs_ok]
    have hc : failAs DecodeError.nonCanonical (e.validate H b.block) = .ok () := by
      rw [hv,failAs_ok]
    exact (reads_blob hl (by decide)).bind_end
      ((Reads.give hr).bind_nil ((Reads.give hc).bind_nil Reads.pure))

lemma reads_batch (h : Encoded H b bs effects) : Reads (readRecord H) bs (.batch b) := by
  have hv : failAs DecodeError.nonCanonical
      (validateBlock H b.block b.finalityCertificate) = .ok () := by
    rw [h.valid,failAs_ok]
  have hro : b.stateDiffs.length * 8 ≤ (b.stateDiffs.flatMap diffBytes).length :=
    length_flatMap_ge fun diff _ => length_diffBytes diff
  have hd : Reads (readDiffs b.stateDiffs.length 0) (b.stateDiffs.flatMap diffBytes)
      b.stateDiffs := reads_diffs h.changes (by rw [Nat.zero_add]; exact h.total)
  have hb : Reads (readBatch H (if b.effects.isSome then 2 else 1))
      ((b.block.header.canonicalBytes ++ (leBytes 8 b.block.transactions.length ++
        b.block.transactions.flatMap (blob ·.toBytes))) ++ (blob b.finalityCertificate ++
          (leBytes 8 b.stateDiffs.length ++ (b.stateDiffs.flatMap diffBytes ++ effects))))
      (.batch b) := by
    refine (reads_block h).bind ((reads_blob h.certificate (by decide)).bind
      ((Reads.give hv).bind_nil ((reads_number h.diffs (by decide)).bind ?_)))
    refine Reads.remaining fun remaining hr => ?_
    rw [length_append] at hr
    exact Reads.after (le_remaining (by decide) hro (by omega)) (hd.bind (reads_effects h).bind_pure)
  rw [append_assoc,append_assoc] at hb
  rw [h.content]
  refine (Reads.readU8 _).bind ?_
  cases hs : b.effects.isSome with
  | true =>
    rw [hs] at hb
    exact hb
  | false =>
    rw [hs] at hb
    exact hb

lemma reads_anchor {cp : Checkpoint} {st : InMemoryState} (hb : cp.block ≠ Hash256.zero)
    (hr : cp.stateRoot = st.root H) :
    Reads (readRecord H) ([0] ++ (u64Bytes cp.height ++ (cp.block.1 ++ (cp.stateRoot.1 ++
      blob (st.exportSnapshot H))))) (.anchor cp st) := by
  have hs : failAs DecodeError.nonCanonical (InMemoryState.fromSnapshot H
      (st.exportSnapshot H) cp.stateRoot) = .ok st := by
    rw [hr,st.fromSnapshot_exportSnapshot,failAs_ok]
  have hl : (st.exportSnapshot H).length ≤ maxSnapshotBytes :=
    st.length_exportSnapshot ▸ st.bounded.size
  exact (Reads.readU8 0).bind ((Reads.readU64 _).bind ((Reads.readFixed _).bind
    ((Reads.readFixed _).bind (Reads.after hb ((reads_blob hl (by decide)).bind_end
      (Reads.give hs).bind_pure)))))

def Record.Sound (H : Hasher) : Record → Prop
  | .anchor cp state => cp.block ≠ Hash256.zero ∧ cp.stateRoot = state.root H
  | .batch _ => True

lemma Record.decode_encode {r : Record} (hs : r.Sound H) (h : r.encode H = .ok bs) :
    bs.length ≤ maxRecordBytes ∧ Record.decode H bs = .ok r := by
  have hr : bs.length ≤ maxRecordBytes ∧ Reads (readRecord H) bs r := by
    cases r with
    | anchor cp st =>
      simp only [Record.encode,encodeAnchor,bind_eq_ok] at h
      obtain ⟨m1,hh,m2,hb,m3,hro,hbl⟩ := h
      have ha := (write_ok hh).trans ((write_ok hb).trans ((write_ok hro).trans (writeBlob_ok hbl)))
      refine ⟨ha.bounded (by rw [length_singleton]; decide),?_⟩
      rw [ha.content]
      exact reads_anchor hs.1 hs.2
    | batch b =>
      obtain ⟨effects,he⟩ := encodeBatch_ok h
      exact ⟨he.bounded,reads_batch he⟩
  refine ⟨hr.1,?_⟩
  rw [Record.decode,ensure_of hr.1,ok_bind,hr.2.whole,failAs_ok]

end Astrolune.Storage

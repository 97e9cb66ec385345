import Astrolune.Lib.MerklePath
import Astrolune.State.Sound
import Astrolune.Storage.RoundTrip

namespace Astrolune
open Lib Codec List

def interiorInput (p : Hash256 × Hash256) : Bytes := [1] ++ (p.1.1 ++ (p.2.1 ++ [0, 0, 0, 0]))

lemma interiorInput_injective {p q : Hash256 × Hash256} (h : interiorInput p = interiorInput q) :
    p = q := by
  have hr := append_cancel_left h
  obtain ⟨hl,hr⟩ := append_inj hr (p.1.2.trans q.1.2.symm)
  obtain ⟨hri,-⟩ := append_inj hr (p.2.2.trans q.2.2.symm)
  exact Prod.ext (Subtype.ext hl) (Subtype.ext hri)

lemma domainInput_ne_interiorInput (domain msg : Bytes) (p : Hash256 × Hash256) :
    domainInput domain msg ≠ interiorInput p := by
  intro h
  have hh := congrArg head? h
  simp only [domainInput,append_assoc,interiorInput] at hh
  rw [head?_append_of_ne_nil _ (by decide)] at hh
  have hf : (ascii "astrolune.v1.").head? = some 97 := by decide
  rw [hf] at hh
  simp at hh

section Root

variable (H : Hasher)

def rootInputs (leaves : List Bytes) : List Bytes :=
  leaves ++ (joinedBy (interiorHash H) (leaves.map H)).map interiorInput

variable {H} {hashed : Bytes → Prop}

variable {lvs leaves' : List Bytes}

lemma mem_rootInputs {p : Hash256 × Hash256}
    (h : p ∈ joinedBy (interiorHash H) (lvs.map H)) :
    interiorInput p ∈ rootInputs H lvs :=
  mem_append_right _ (mem_map_of_mem h)

lemma merkleRoot_ne_zero (hn : lvs ≠ []) (hz : ∀ x, hashed x → H x ≠ Hash256.zero)
    (hi : ∀ x ∈ rootInputs H lvs, hashed x) :
    merkleRoot H (lvs.map H) ≠ Hash256.zero := by
  have hn' : lvs.map H ≠ [] := fun h => hn (map_eq_nil_iff.mp h)
  obtain ⟨t,ht⟩ : ∃ t, top (interiorHash H) (lvs.map H) = some t := top_isSome hn'
  change (top (interiorHash H) (lvs.map H)).getD Hash256.zero ≠ _
  rw [ht,Option.getD_some]
  rcases top_mem ht with hl | ⟨p,hp,rfl⟩
  · obtain ⟨x,hx,rfl⟩ := mem_map.mp hl
    exact hz x (hi x (mem_append_left _ hx))
  · exact hz _ (hi _ (mem_rootInputs hp))

lemma ne_interiorHash (hf : CollisionFree H hashed) (hi : ∀ x ∈ rootInputs H lvs, hashed x)
    (hi' : ∀ x ∈ rootInputs H leaves', hashed x)
    (hap : ∀ x ∈ lvs, ∀ p, x ≠ interiorInput p) :
    ∀ a ∈ lvs.map H, ∀ q ∈ joinedBy (interiorHash H) (leaves'.map H),
        a ≠ interiorHash H q.1 q.2 := by
  intro a ha q hq heq
  obtain ⟨x,hx,rfl⟩ := mem_map.mp ha
  exact hap x hx q (hf _ _ (hi x (mem_append_left _ hx)) (hi' _ (mem_rootInputs hq)) heq)

lemma leaves_of_merkleRoot (hf : CollisionFree H hashed) (hz : ∀ x, hashed x → H x ≠ Hash256.zero)
    (hi : ∀ x ∈ rootInputs H lvs, hashed x)
    (hi' : ∀ x ∈ rootInputs H leaves', hashed x)
    (ha : ∀ x ∈ lvs, ∀ p, x ≠ interiorInput p)
    (ha' : ∀ x ∈ leaves', ∀ p, x ≠ interiorInput p)
    (h : merkleRoot H (lvs.map H) = merkleRoot H (leaves'.map H)) :
    lvs = leaves' := by
  by_cases hni : lvs = []
  · by_contra hn
    rw [hni] at h
    exact merkleRoot_ne_zero (fun hn' => hn (hni.trans hn'.symm)) hz hi' h.symm
  by_cases hn' : leaves' = []
  · rw [hn'] at h
    exact absurd h (merkleRoot_ne_zero hni hz hi)
  have hm : lvs.map H ≠ [] := fun h => hni (map_eq_nil_iff.mp h)
  have hm' : leaves'.map H ≠ [] := fun h => hn' (map_eq_nil_iff.mp h)
  have hto : top (interiorHash H) (lvs.map H) = top (interiorHash H) (leaves'.map H) := by
    obtain ⟨t,ht⟩ : ∃ t, top (interiorHash H) (lvs.map H) = some t := top_isSome hm
    obtain ⟨t',ht'⟩ : ∃ t', top (interiorHash H) (leaves'.map H) = some t' := top_isSome hm'
    change (top (interiorHash H) _).getD _ = (top (interiorHash H) _).getD _ at h
    rw [ht,ht',Option.getD_some,Option.getD_some] at h
    rw [ht,ht',h]
  have hl := top_injective hm hm' (fun p hp q hq heq => interiorInput_injective
      (hf _ _ (hi _ (mem_rootInputs hp)) (hi' _ (mem_rootInputs hq)) heq))
    (ne_interiorHash hf hi hi' ha) (ne_interiorHash hf hi' hi ha') hto
  exact hf.eq_of_map (fun x hx => hi x (mem_append_left _ hx))
    (fun x hx => hi' x (mem_append_left _ hx)) hl

end Root

def BlockHeader.input (h : BlockHeader) : Bytes :=
  domainInput (ascii "astrolune.block.v1") h.canonicalBytes

def Transaction.idInput (tx : Transaction) : Bytes :=
  domainInput (ascii "astrolune.tx.id.v1") tx.toBytes

def ExecutionReceipt.input (r : ExecutionReceipt) : Bytes :=
  domainInput (ascii "astrolune.receipt.v1") r.canonicalBytes

lemma BlockHeader.input_injective {h h' : BlockHeader} (heq : h.input = h'.input) : h = h' := by
  obtain ⟨-,hb⟩ := domainInput_injective (by decide) (by decide) heq
  exact (reads_header h).unique (hb ▸ reads_header h')

lemma ExecutionReceipt.input_injective {r r' : ExecutionReceipt} (heq : r.input = r'.input) :
    r = r' := by
  obtain ⟨-,hb⟩ := domainInput_injective (by decide) (by decide) heq
  exact (reads_receipt r).unique (hb ▸ reads_receipt r')

lemma Transaction.idInput_injective {tx tx' : Transaction} (h : tx.Encodable)
    (h' : tx'.Encodable) (heq : tx.idInput = tx'.idInput) : tx = tx' := by
  obtain ⟨-,hb⟩ := domainInput_injective (by decide) (by decide) heq
  have hd := decode_toBytes h
  rw [hb,decode_toBytes h'] at hd
  exact (Except.ok.inj hd).symm

end Astrolune

namespace Astrolune.Storage
open Lib Codec State List

section Body

variable (H : Hasher)

def blockInputs (block : Block) : List Bytes :=
  block.header.input :: rootInputs H (block.transactions.map Transaction.idInput)

def receiptInputs (effects : BlockEffects) : List Bytes :=
  rootInputs H (effects.receipts.map ExecutionReceipt.input)

variable {H} {hashed : Bytes → Prop}

variable {block : Block} {cert : Bytes} {u : Unit} {effects : BlockEffects} {hdr : BlockHeader}

lemma validateBlock_ok (h : validateBlock H block cert = .ok u) :
    (∀ tx ∈ block.transactions, tx.Encodable) ∧
      merkleRoot H ((block.transactions.map Transaction.idInput).map H) =
        block.header.transactionsRoot := by
  simp only [validateBlock,bind_eq_ok,ensure_eq_ok] at h
  obtain ⟨_,_,_,hc,hr⟩ := h
  refine ⟨fun tx ht => (foldlM_checkTransaction_ok hc tx ht).1,?_⟩
  rw [map_map]
  exact hr

lemma validateHeader_root (h : effects.validateHeader H hdr = .ok u) :
    merkleRoot H ((effects.receipts.map ExecutionReceipt.input).map H) = hdr.receiptsRoot := by
  simp only [BlockEffects.validateHeader,bind_eq_ok,ensure_eq_ok] at h
  obtain ⟨_,_,_,_,_,_,_,⟨hr,_⟩,_⟩ := h
  rw [map_map]
  exact hr

lemma transactions_of_hash {block' : Block} {cert' : Bytes} {u' : Unit}
    (hf : CollisionFree H hashed) (hz : ∀ x, hashed x → H x ≠ Hash256.zero)
    (hi : ∀ x ∈ blockInputs H block, hashed x)
    (hi' : ∀ x ∈ blockInputs H block', hashed x)
    (h : validateBlock H block cert = .ok u)
    (h' : validateBlock H block' cert' = .ok u')
    (heq : block.header.computeHash H = block'.header.computeHash H) :
    block.transactions = block'.transactions := by
  rw [blockInputs,forall_mem_cons] at hi hi'
  have hh : block.header = block'.header := BlockHeader.input_injective (hf _ _ hi.1 hi'.1 heq)
  obtain ⟨hb,hr⟩ := validateBlock_ok h
  obtain ⟨hb',hr'⟩ := validateBlock_ok h'
  have hin := leaves_of_merkleRoot hf hz hi.2 hi'.2 (fun x hx p => by
      obtain ⟨tx,-,rfl⟩ := mem_map.mp hx
      exact domainInput_ne_interiorInput _ _ p)
    (fun x hx p => by
      obtain ⟨tx,-,rfl⟩ := mem_map.mp hx
      exact domainInput_ne_interiorInput _ _ p)
    (by rw [hr,hr',hh])
  exact eq_of_map_eq (fun tx ht tx' ht' => Transaction.idInput_injective (hb tx ht) (hb' tx' ht')) hin

lemma receipts_of_header {effects' : BlockEffects} {u' : Unit}
    (hf : CollisionFree H hashed) (hz : ∀ x, hashed x → H x ≠ Hash256.zero)
    (hi : ∀ x ∈ receiptInputs H effects, hashed x)
    (hi' : ∀ x ∈ receiptInputs H effects', hashed x)
    (h : effects.validateHeader H hdr = .ok u)
    (h' : effects'.validateHeader H hdr = .ok u') :
    effects.receipts = effects'.receipts := by
  have hin := leaves_of_merkleRoot hf hz hi hi' (fun x hx p => by
      obtain ⟨r,-,rfl⟩ := mem_map.mp hx
      exact domainInput_ne_interiorInput _ _ p)
    (fun x hx p => by
      obtain ⟨r,-,rfl⟩ := mem_map.mp hx
      exact domainInput_ne_interiorInput _ _ p)
    (by rw [validateHeader_root h,validateHeader_root h'])
  exact eq_of_map_eq (fun r _ r' _ => ExecutionReceipt.input_injective) hin

end Body

/-- A header's hash fixes the transactions of every valid block under it, a header fixes the
receipts of all effects valid for it, and a root fixes its list of leaves. -/
theorem header_fixes_body (H : Hasher) (hashed : Bytes → Prop)
    (hfree : CollisionFree H hashed) (hzero : ∀ x, hashed x → H x ≠ Hash256.zero) :
    (∀ (block block' : Block) (certificate certificate' : Bytes),
      (∀ x ∈ blockInputs H block ++ blockInputs H block', hashed x) →
      validateBlock H block certificate = .ok () →
      validateBlock H block' certificate' = .ok () →
      block.header.computeHash H = block'.header.computeHash H →
      block.transactions = block'.transactions) ∧
    (∀ (effects effects' : BlockEffects) (header : BlockHeader),
      (∀ x ∈ receiptInputs H effects ++ receiptInputs H effects', hashed x) →
      effects.validateHeader H header = .ok () →
      effects'.validateHeader H header = .ok () →
      effects.receipts = effects'.receipts) ∧
    (∀ leaves leaves' : List Bytes,
      (∀ x ∈ rootInputs H leaves ++ rootInputs H leaves', hashed x) →
      (∀ x ∈ leaves ++ leaves', ∀ p, x ≠ interiorInput p) →
      merkleRoot H (leaves.map H) = merkleRoot H (leaves'.map H) →
      leaves = leaves') := by
  refine ⟨fun block block' certificate certificate' hi h h' heq => ?_,
    fun effects effects' header hi h h' => ?_,fun leaves leaves' hi ha heq => ?_⟩
  · rw [forall_mem_append] at hi
    exact transactions_of_hash hfree hzero hi.1 hi.2 h h' heq
  · rw [forall_mem_append] at hi
    exact receipts_of_header hfree hzero hi.1 hi.2 h h'
  · rw [forall_mem_append] at hi ha
    exact leaves_of_merkleRoot hfree hzero hi.1 hi.2 ha.1 ha.2 heq

namespace ThreeTransactions

def transaction (nonce : UInt64) : Transaction :=
  { version := 1, expiresAt := 9, lane := .payments, resourcePrices := .zero, chainId := 7,
    sender := Fixed.fill 32 5, nonce, accessList := [[1, 2]],
    resourceLimit := .zero, payload := [3], signature := Fixed.fill 64 6 }

def transactions : List Transaction := [transaction 0, transaction 1, transaction 2]

def receipts : List ExecutionReceipt := transactions.map fun tx =>
  ⟨tx.computeTxId residueHash, true, ⟨1, 1, 1, 1⟩, Hash256.zero⟩

def state : StateMap := OrderedMap.empty.insert genesisKey (replicate 32 8)

def block : Block where
  header :=
    { height := 1, parent := Hash256.zero,
      transactionsRoot := merkleRoot residueHash (transactions.map (·.computeTxId residueHash)),
      stateRoot := (Tree.fromMap state).hash residueHash,
      receiptsRoot := merkleRoot residueHash (receipts.map (·.commitment residueHash)),
      committeeRoot := Hash256.zero, capacity := ⟨9, 9, 9, 9⟩ }
  transactions := transactions

def effects : BlockEffects where
  receipts := receipts
  genesis := .present ⟨genesisKey, replicate 32 8, ⟨0, 1, []⟩⟩
  committee := none
  potb := none

def inputs : List Bytes := blockInputs residueHash block ++ receiptInputs residueHash effects

end ThreeTransactions

open ThreeTransactions in
theorem header_fixes_three_transactions :
    (validateBlock residueHash block [] = .ok () ∧ block.transactions = transactions) ∧
    effects.validateHeader residueHash block.header = .ok () ∧ effects.receipts = receipts ∧
    (block.transactions.map Transaction.idInput) = transactions.map Transaction.idInput := by
  have hb : validateBlock residueHash block [] = .ok () := by decide +kernel
  have he : effects.validateHeader residueHash block.header = .ok () := by decide +kernel
  have hf : ∀ x ∈ inputs, ∀ y ∈ inputs, residueHash x = residueHash y → x = y := by
    decide +kernel
  have hz : ∀ x ∈ inputs, residueHash x ≠ Hash256.zero := by decide +kernel
  obtain ⟨hbo,hr,hl⟩ := header_fixes_body residueHash (· ∈ inputs)
    (fun x y hx hy => hf x hx y hy) hz
  refine ⟨⟨hb,?_⟩,he,?_,?_⟩
  · refine hbo block block [] [] (fun x hx => ?_) hb hb rfl
    exact mem_append_left _ ((mem_append.mp hx).elim id id)
  · refine hr effects effects block.header (fun x hx => ?_) he he
    exact mem_append_right _ ((mem_append.mp hx).elim id id)
  · refine hl _ _ (fun x hx => ?_) (fun x hx p => ?_) rfl
    · exact mem_append_left _ (mem_cons_of_mem _ ((mem_append.mp hx).elim id id))
    · obtain ⟨tx,-,rfl⟩ := mem_map.mp ((mem_append.mp hx).elim id id)
      exact domainInput_ne_interiorInput _ _ p

end Astrolune.Storage

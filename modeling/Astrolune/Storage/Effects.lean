import Astrolune.State.Proof
import Astrolune.Types.Block

namespace Astrolune.Storage
open Lib Codec State Decoder Reader List

inductive StorageError where
  | corrupt
  | invalidOrder
  | verificationFailed
  | limitExceeded
  | io
  | locked
  | durabilityUnknown
  | unsupported
  deriving DecidableEq

def maxBlockReceipts : Nat := 16384
def maxReceiptsBytes : Nat := maxBlockReceipts * 97 + 16384

def genesisKey : StateKey := ascii "astrolune/genesis/v1"
def committeeStateKey : StateKey := ascii "astrolune/consensus/committee/v1"
def potbStateKey : StateKey := ascii "astrolune.potb.state.v1"

structure BlockEffects where
  receipts : List ExecutionReceipt
  genesis : StateValueProof
  committee : Option StateValueProof
  potb : Option StateValueProof
  deriving DecidableEq

namespace BlockEffects

section Validate

variable (H : Hasher)

def checkProof (proof : StateValueProof) (root : Hash256) (key : StateKey) (ok : Nat → Bool) :
    Except StorageError Unit := do
  let value ← failAs .verificationFailed (proof.verify H root key)
  ensure .verificationFailed (value.any fun bytes => ok bytes.length)

def addResources (total : Resources) (receipt : ExecutionReceipt) : Except StorageError Resources :=
  okOr .verificationFailed (total.checkedAdd receipt.resources)

def validateHeader (e : BlockEffects) (header : BlockHeader) : Except StorageError Unit := do
  ensure .verificationFailed (¬(e.committee.isSome ∧ e.potb.isSome))
  ensure .limitExceeded (e.receipts.length ≤ maxBlockReceipts)
  let resources ← e.receipts.foldlM addResources Resources.zero
  ensure .verificationFailed
    (merkleRoot H (e.receipts.map (·.commitment H)) = header.receiptsRoot ∧
      resources.fitsIn header.capacity)
  checkProof H e.genesis header.stateRoot genesisKey (· = 32)
  e.committee.forM fun proof =>
    checkProof H proof header.stateRoot committeeStateKey fun n => 0 < n && n ≤ 2712
  e.potb.forM fun proof =>
    checkProof H proof header.stateRoot potbStateKey fun n => 0 < n && n ≤ 7762

def validate (e : BlockEffects) (block : Block) : Except StorageError Unit := do
  ensure .verificationFailed (e.receipts.length = block.transactions.length ∧
    e.receipts.length ≤ maxBlockReceipts ∧
    ∀ pair ∈ e.receipts.zip block.transactions, pair.1.transaction = pair.2.computeTxId H)
  e.validateHeader H block.header

end Validate

def magic (e : BlockEffects) : Bytes :=
  if e.potb.isSome then ascii "ALEFF003"
  else if e.committee.isSome then ascii "ALEFF002"
  else ascii "ALEFFECT"

def proofBytes (limit : Nat) (proof : StateValueProof) : Except StorageError Bytes := do
  let bytes ← failAs .limitExceeded proof.toBytes
  ensure .limitExceeded (bytes.length ≤ limit)
  return leBytes 4 bytes.length ++ bytes

def authorityLimit (isPotb : Bool) : Nat := if isPotb then 12288 else 4096

def authorityBytes (isPotb : Bool) : Option StateValueProof → Except StorageError Bytes
  | none => .ok []
  | some proof => proofBytes (authorityLimit isPotb) proof

def toBytes (e : BlockEffects) : Except StorageError Bytes := do
  ensure .verificationFailed (¬(e.committee.isSome ∧ e.potb.isSome))
  ensure .limitExceeded (e.receipts.length ≤ maxBlockReceipts)
  let genesis ← proofBytes 2048 e.genesis
  let authority ← authorityBytes e.potb.isSome (e.committee.or e.potb)
  return e.magic ++ (leBytes 4 e.receipts.length ++
    (e.receipts.flatMap ExecutionReceipt.canonicalBytes ++ (genesis ++ authority)))

inductive Profile where
  | legacy
  | committee
  | potb
  deriving DecidableEq

def readProfile (bytes : Bytes) : Except DecodeError Profile :=
  if bytes = ascii "ALEFFECT" then .ok .legacy
  else if bytes = ascii "ALEFF002" then .ok .committee
  else if bytes = ascii "ALEFF003" then .ok .potb
  else .error .unsupported

def readProof (limit : Nat) : Decoder StateValueProof := do
  let length ← readU32
  check .limitExceeded (length.toNat ≤ limit)
  let bytes ← readExact length.toNat
  give (failAs .nonCanonical (StateValueProof.fromBytes bytes))

def readAuthority : Profile → Decoder (Option StateValueProof)
  | .legacy => pure none
  | .committee => do return some (← readProof (authorityLimit false))
  | .potb => do return some (← readProof (authorityLimit true))

def ofProfile (receipts : List ExecutionReceipt) (genesis : StateValueProof) (profile : Profile)
    (authority : Option StateValueProof) : BlockEffects :=
  if profile = .potb then { receipts, genesis, committee := none, potb := authority }
  else { receipts, genesis, committee := authority, potb := none }

def read : Decoder BlockEffects := do
  let magic ← readExact 8
  let profile ← give (readProfile magic)
  let count ← readU32
  check .limitExceeded (count.toNat ≤ maxBlockReceipts)
  let receipts ← many ExecutionReceipt.read count.toNat
  let genesis ← readProof 2048
  let authority ← readAuthority profile
  return ofProfile receipts genesis profile authority

def fromBytes (bytes : Bytes) : Except StorageError BlockEffects := do
  ensure .limitExceeded (bytes.length ≤ maxReceiptsBytes)
  failAs .corrupt (whole read bytes)

lemma toNat_ofNat_u32 {n : Nat} (h : n < 2 ^ 32) : (UInt32.ofNat n).toNat = n := by
  simp only [UInt32.toNat_ofNat']
  omega

lemma reads_length32 {n : Nat} (h : n < 2 ^ 32) :
    Reads readU32 (leBytes 4 n) (UInt32.ofNat n) := by
  have hr := Reads.readU32 (UInt32.ofNat n)
  rwa [u32Bytes,toNat_ofNat_u32 h] at hr

variable {bs : Bytes} {e : BlockEffects}

variable {lim : Nat} {pf : StateValueProof}

lemma reads_proof (hli : lim < 2 ^ 32)
    (h : proofBytes lim pf = .ok bs) : Reads (readProof lim) bs pf := by
  simp only [proofBytes,bind_eq_ok,ensure_eq_ok,pure_ok_iff] at h
  obtain ⟨encoded,he,_,hle,rfl⟩ := h
  have hd := StateValueProof.fromBytes_toBytes (failAs_eq_ok.mp he)
  have hn := toNat_ofNat_u32 (hle.trans_lt hli)
  have hg : failAs DecodeError.nonCanonical (StateValueProof.fromBytes encoded) = .ok pf := by
    rw [hd,failAs_ok]
  have hex : Reads (readExact (UInt32.ofNat encoded.length).toNat) encoded encoded :=
    Reads.readExact hn.symm
  have hl := hex.bind (y := [])
    (f := fun bs => give (failAs DecodeError.nonCanonical (StateValueProof.fromBytes bs)))
    (Reads.give hg)
  rw [append_nil] at hl
  exact (reads_length32 (hle.trans_lt hli)).bind (Reads.after (hn.symm ▸ hle) hl)

lemma proofBytes_length (h : proofBytes lim pf = .ok bs) : bs.length ≤ 4 + lim := by
  simp only [proofBytes,bind_eq_ok,ensure_eq_ok,pure_ok_iff] at h
  obtain ⟨encoded,_,_,hl,rfl⟩ := h
  rw [length_append,leBytes_length]
  omega

def profile (e : BlockEffects) : Profile :=
  if e.potb.isSome then .potb else if e.committee.isSome then .committee else .legacy

lemma readProfile_magic (e : BlockEffects) : readProfile e.magic = .ok e.profile := by
  unfold magic profile
  split
  · decide
  · split
    · decide
    · decide

lemma reads_authority (ho : ¬(e.committee.isSome ∧ e.potb.isSome))
    (h : authorityBytes e.potb.isSome (e.committee.or e.potb) = .ok bs) :
    Reads (readAuthority e.profile) bs (e.committee.or e.potb) := by
  have hl : ∀ isPotb, authorityLimit isPotb < 2 ^ 32 := by decide
  obtain ⟨receipts,gen,com,potb⟩ := e
  cases potb with
  | some pf =>
    cases com with
    | some other => exact absurd ⟨rfl,rfl⟩ ho
    | none => exact (reads_proof (hl true) h).bind_pure
  | none =>
    cases com with
    | some pf => exact (reads_proof (hl false) h).bind_pure
    | none =>
      cases h
      exact Reads.pure

lemma ofProfile_profile (ho : ¬(e.committee.isSome ∧ e.potb.isSome)) :
    ofProfile e.receipts e.genesis e.profile (e.committee.or e.potb) = e := by
  obtain ⟨receipts,gen,com,potb⟩ := e
  cases potb with
  | some pf =>
    cases com with
    | some other => exact absurd ⟨rfl,rfl⟩ ho
    | none => rfl
  | none => cases com <;> rfl

lemma magic_length (e : BlockEffects) : e.magic.length = 8 := by
  unfold magic
  split
  · decide
  · split
    · decide
    · decide

lemma authorityBytes_length (h : authorityBytes e.potb.isSome (e.committee.or e.potb) = .ok bs) :
    bs.length ≤ 4 + 12288 := by
  cases ha : e.committee.or e.potb with
  | none =>
    rw [ha] at h
    cases h
    simp
  | some pf =>
    rw [ha] at h
    have hl := proofBytes_length h
    unfold authorityLimit at hl
    split at hl <;> omega

lemma fromBytes_toBytes (h : e.toBytes = .ok bs) :
    bs.length ≤ maxReceiptsBytes ∧ fromBytes bs = .ok e := by
  simp only [toBytes,bind_eq_ok,ensure_eq_ok,pure_ok_iff] at h
  obtain ⟨_,ho,_,hco,gen,hge,authority,hau,rfl⟩ := h
  have hf : (e.receipts.flatMap ExecutionReceipt.canonicalBytes).length =
      97 * e.receipts.length := by
    induction e.receipts with
    | nil => rfl
    | cons receipt rest ih =>
      rw [flatMap_cons,length_append,ih,ExecutionReceipt.canonicalBytes_length,length_cons]
      omega
  have hl : (e.magic ++ (leBytes 4 e.receipts.length ++
      (e.receipts.flatMap ExecutionReceipt.canonicalBytes ++ (gen ++ authority)))).length ≤
      maxReceiptsBytes := by
    have hg := proofBytes_length hge
    have ha := authorityBytes_length hau
    rw [length_append,length_append,length_append,length_append, magic_length,leBytes_length,hf]
    unfold maxReceiptsBytes
    omega
  have hb : e.receipts.length < 2 ^ 32 := hco.trans_lt (by decide)
  have hn := toNat_ofNat_u32 hb
  have hre : Reads (many ExecutionReceipt.read (UInt32.ofNat e.receipts.length).toNat)
      (e.receipts.flatMap ExecutionReceipt.canonicalBytes) e.receipts := by
    rw [hn]
    exact Reads.many fun receipt _ => receipt.reads_receipt
  have hc : (UInt32.ofNat e.receipts.length).toNat ≤ maxBlockReceipts := by
    rw [hn]
    exact hco
  have hp : Reads (readProof 2048) gen e.genesis := reads_proof (by decide) hge
  have hr : Reads read _ (ofProfile e.receipts e.genesis e.profile (e.committee.or e.potb)) :=
    (Reads.readExact e.magic_length).bind ((Reads.give e.readProfile_magic).bind_nil
      ((reads_length32 hb).bind (Reads.after hc (hre.bind
        (hp.bind (reads_authority ho hau).bind_pure)))))
  refine ⟨hl,?_⟩
  rw [fromBytes,ensure_of hl,ok_bind,hr.whole,ofProfile_profile ho,failAs_ok]

end BlockEffects
end Astrolune.Storage

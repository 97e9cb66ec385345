import Astrolune.Execution.Signed
import Astrolune.Runtime.Confined

namespace Astrolune.Execution
open Lib Codec Crypto State List

inductive KeyFamily where
  | account
  | code
  | troctoCode
  | state
  | troctoState
  | genesis
  | runtime
  | validator
  | profile
  | committee
  | potb
  deriving DecidableEq

namespace KeyFamily

variable {f g : KeyFamily} {key : StateKey}

def base : KeyFamily → Bytes
  | .account => ascii "astrolune/account/v1/"
  | .code => ascii "astrolune/contract/code/v2/"
  | .troctoCode => ascii "astrolune/contract/code/v3/"
  | .state => ascii "astrolune/contract/state/v2/"
  | .troctoState => ascii "astrolune/contract/state/v3/"
  | .genesis => ascii "astrolune/genesis/v1"
  | .runtime => ascii "astrolune/runtime/v2"
  | .validator => ascii "astrolune/validator/v1/"
  | .profile => ascii "astrolune/consensus/profile/v2"
  | .committee => ascii "astrolune/consensus/committee/v1"
  | .potb => ascii "astrolune.potb.state.v1"

def Has (f : KeyFamily) (key : StateKey) : Prop := f.base <+: key

def all : List KeyFamily :=
  [account, code, troctoCode, state, troctoState, genesis, runtime, validator, profile, committee,
    potb]

lemma mem_all (f : KeyFamily) : f ∈ all := by cases f <;> decide

lemma eq_of_base (h : f.base <+: g.base) : f = g := by
  have ha : ∀ f ∈ all, ∀ g ∈ all, f.base.isPrefixOf g.base = true → f = g := by decide +kernel
  exact ha f (mem_all f) g (mem_all g) (List.isPrefixOf_iff_prefix.mpr h)

lemma Has.unique (hf : f.Has key) (hg : g.Has key) : f = g := by
  rcases prefix_or_prefix_of_prefix hf hg with h | h
  · exact eq_of_base h
  · exact (eq_of_base h).symm

lemma has_account (addr : Address) : account.Has (accountKey addr) := prefix_append _ _

lemma has_code (addr : Address) : code.Has (contractCodeKey addr) := prefix_append _ _

lemma has_troctoCode (addr : Address) : troctoCode.Has (troctoContractCodeKey addr) :=
  prefix_append _ _

lemma has_state (H : Hasher) (addr : Address) (localKey : Bytes) :
    state.Has (contractStateKey H addr localKey) := prefix_append _ _

lemma has_troctoState (H : Hasher) (addr : Address) (localKey : Bytes) :
    troctoState.Has (troctoContractStateKey H addr localKey) := prefix_append _ _

lemma has_runtime : runtime.Has runtimeKey := prefix_rfl

end KeyFamily

def ActionWrites (b : Backend) (tx : Transaction) (key : StateKey) : ContractAction → Prop
  | .deploy _ => key = contractCodeKey (contractAddress b.crypto.blake2s tx.chainId tx.sender tx.nonce)
  | .deployTrocto _ =>
    key = troctoContractCodeKey (troctoContractAddress b.crypto.blake2s tx.chainId tx.sender tx.nonce)
  | .call address _ keys =>
    ∃ localKey ∈ keys, key = contractStateKey b.crypto.blake2s address localKey
  | .callTrocto address _ keys =>
    ∃ localKey ∈ keys, key = troctoContractStateKey b.crypto.blake2s address localKey

def MayWrite (b : Backend) (tx : Transaction) (key : StateKey) : Prop :=
  key = accountKey tx.sender ∨
  (∃ payment, tx.lane = .payments ∧ Payment.decode tx.payload = .ok payment ∧
    key = accountKey payment.recipient) ∨
  ∃ payload, tx.lane = .contracts ∧ ContractPayload.decode tx.payload = .ok payload ∧
    ActionWrites b tx key payload.action

lemma mem_sortCanonical {d : StateDiff} {change : StateChange} :
    change ∈ d.sortCanonical.changes ↔ change ∈ d.changes :=
  mem_insertionSort _

@[simp] lemma key_change (key : StateKey) (value : Option Bytes) : (change key value).key = key := by
  cases value <;> rfl

section Payments

variable {c : Suite} {s s' : PaymentSession} {tx : Transaction} {out : TransactionOutput}

/-- What an accepted payment has found and checked. -/
structure Pays (c : Suite) (s : PaymentSession) (tx : Transaction) (payment : Payment)
    (sender : AccountState) (after : AccountState × Option AccountState) (used : Resources) : Prop where
  decoded : Payment.decode tx.payload = .ok payment
  account : s.account tx.sender = .ok (some sender)
  accepted : SignedValidator.Accepts c sender payment.publicKey s.capacity s.prices tx s.context
  spent : s.used.checkedAdd (paymentResources tx) = some used
  fits : (paymentResources tx).fitsIn tx.resourceLimit ∧ used.fitsIn s.capacity
  declared : accountKey tx.sender ∈ tx.accessList ∧ accountKey payment.recipient ∈ tx.accessList
  reserved : ∃ limit reserve, tx.resourceLimit.checkedCost s.prices = some limit ∧
    Resources.checkedAddU64 limit payment.amount = some reserve ∧ reserve ≤ sender.balance
  charged : ∃ fee nonce balance, (paymentResources tx).checkedCost s.prices = some fee ∧
    Resources.checkedAddU64 sender.nonce 1 = some nonce ∧
    Resources.checkedSubU64 sender.balance fee = some balance ∧
    s.transfer tx payment nonce balance = .ok after

lemma pays_of_execute (h : s.execute c tx = .ok (out,s')) :
    ∃ payment sender after used, Pays c s tx payment sender after used ∧
      out.diff = PaymentSession.diff tx payment after.1 after.2 ∧
      out.receipt = ⟨tx.computeTxId c.blake2s,true,paymentResources tx,
        out.diff.commitment c.blake2s⟩ := by
  simp only [PaymentSession.execute,bind_eq_ok,ofTransaction_eq_ok,okOr_eq_ok,ensure_eq_ok,
    pure_ok_iff,Prod.mk.injEq] at h
  obtain ⟨payment,hp,fd,hac,sender,rfl,validated,hv,used,hu,_,hfi,
    _,hd,limit,hli,reserve,hr,_,hl,fee,hf,nonce,hn,balance,
    hb,after,haf,rfl,rfl⟩ := h
  obtain ⟨ha,rfl⟩ := SignedValidator.validate_forSender.mp hv
  exact ⟨payment,sender,after,used,⟨hp,hac,ha,hu,hfi,hd,
    ⟨limit,reserve,hli,hr,hl⟩,⟨fee,nonce,balance,hf,hn,hb,haf⟩⟩,
    rfl,rfl⟩

lemma mem_diff {payment : Payment} {sender : AccountState} {recipient : Option AccountState}
    {change : StateChange} (h : change ∈ (PaymentSession.diff tx payment sender recipient).changes) :
    change.key = accountKey tx.sender ∨ change.key = accountKey payment.recipient := by
  cases recipient with
  | none =>
    rw [PaymentSession.diff,mem_sortCanonical] at h
    exact .inl (by rw [mem_singleton.mp h]; rfl)
  | some account =>
    rw [PaymentSession.diff,mem_sortCanonical] at h
    rcases mem_append.mp h with h | h
    · exact .inl (by rw [mem_singleton.mp h]; rfl)
    · exact .inr (by rw [mem_singleton.mp h]; rfl)

end Payments

section Actions

variable {b : Backend} {view : View} {tx : Transaction} {ctx : ValidationContext}
  {fs : NativeFaults} {effects : Effects} {change : StateChange} {addr : Address}
  {input : Bytes} {keys : List Bytes}

lemma declared_of_loadState {loaded : OrderedMap Bytes Bytes × Nat}
    (h : loadState b view tx addr keys = .ok loaded) :
    ∀ key ∈ keys, contractStateKey b.crypto.blake2s addr key ∈ tx.accessList := by
  intro key hk
  obtain ⟨acc,acc',hs⟩ := step_of_foldlM h hk
  simp only [bind_eq_ok,ensure_eq_ok] at hs
  exact hs.choose_spec.1

lemma writes_of_call (h : executeCall b view tx ctx addr input keys = .ok effects)
    (hc : change ∈ effects.diff.changes) :
    (∃ key ∈ keys, change.key = contractStateKey b.crypto.blake2s addr key) ∧
      change.key ∈ tx.accessList := by
  simp only [executeCall,bind_eq_ok,ofRuntime_eq_ok,pure_ok_iff] at h
  obtain ⟨_,_,fd,_,code,_,loaded,hl,limits,_,res,hr,resources,_,rfl⟩ := h
  simp only [stageResult,mem_map] at hc
  obtain ⟨e,he,rfl⟩ := hc
  have hk : e.1 ∈ keys := Runtime.writes_confined hr e he
  rw [key_change]
  exact ⟨⟨e.1,hk,rfl⟩,declared_of_loadState hl e.1 hk⟩

lemma authorized_of_loadSlot {key : Bytes} {slot : Slot}
    (h : loadSlot b view addr keys key = .ok slot) : slot.authorized = true ↔ key ∈ keys := by
  unfold loadSlot at h
  split at h
  · next hm =>
    simp only [bind_eq_ok] at h
    obtain ⟨fd,_,h⟩ := h
    split at h
    · cases h
      simp [hm]
    · simp only [bind_eq_ok,pure_ok_iff] at h
      obtain ⟨_,_,rfl⟩ := h
      simp [hm]
  · next hm =>
    cases h
    simp [hm]

lemma mem_writtenSlots {res : Trocto.ContractExecution} {e : Bytes × Option UInt64}
    (h : e ∈ writtenSlots keys res) :
    ∃ i, keys[i]? = some e.1 ∧ res.writes.getD i false = true := by
  simp only [writtenSlots,mem_filterMap] at h
  obtain ⟨⟨⟨key,value⟩,written⟩,hm,hs⟩ := h
  split at hs
  · next hw =>
    cases hs
    obtain ⟨i,hi⟩ := mem_iff_getElem?.mp hm
    rw [getElem?_zip_eq_some] at hi
    obtain ⟨hl,hr⟩ := hi
    rw [getElem?_zip_eq_some] at hl
    refine ⟨i,hl.1,?_⟩
    rw [getD_eq_getElem?_getD,hr]
    exact hw
  · cases hs

lemma writes_of_callTrocto (h : executeCallTrocto b view tx ctx fs addr input keys = .ok effects)
    (hc : change ∈ effects.diff.changes) :
    (∃ key ∈ keys, change.key = troctoContractStateKey b.crypto.blake2s addr key) ∧
      change.key ∈ tx.accessList := by
  simp only [executeCallTrocto,bind_eq_ok,ofNative_eq_ok,ensure_eq_ok,pure_ok_iff] at h
  obtain ⟨_,_,fd,_,code,_,_,_,program,_,_,hd,_,_,slots,hsl,limits,_,_,
    _,result,hr,staged,hst,resources,_,rfl⟩ := h
  simp only [stageTroctoResult,bind_eq_ok,pure_ok_iff] at hst
  obtain ⟨_,_,rfl⟩ := hst
  simp only [mem_map] at hc
  obtain ⟨e,he,rfl⟩ := hc
  obtain ⟨i,hi,hw⟩ := mem_writtenSlots he
  have hk : e.1 ∈ keys := by
    simp only [nativeExecute,bind_eq_ok] at hr
    obtain ⟨_,_,_,_,hr⟩ := hr
    split at hr
    · next hev =>
      cases hr
      have ha := Trocto.Program.writes_authorized hev i hw
      have hslo : ∃ slot, slots[i]? = some slot ∧ slot.authorized = true := by
        simp only [getD_eq_getElem?_getD,getElem?_map] at ha
        cases hs : slots[i]? with
        | none => simp [hs] at ha
        | some slot => exact ⟨slot,rfl,by simpa [hs] using ha⟩
      obtain ⟨slot,hslo,hau⟩ := hslo
      exact (authorized_of_loadSlot (getElem?_of_mapM hsl hi hslo)).mp hau
    · cases hr
  rw [key_change]
  exact ⟨⟨e.1,hk,rfl⟩,hd e.1 hk⟩

lemma writes_of_action {action : ContractAction}
    (h : executeAction b view tx ctx fs action = .ok effects)
    (hc : change ∈ effects.diff.changes) :
    ActionWrites b tx change.key action ∧ change.key ∈ tx.accessList := by
  cases action with
  | deploy code =>
    simp only [executeAction,executeDeploy,bind_eq_ok,ensure_eq_ok,pure_ok_iff] at h
    obtain ⟨_,hd,_,_,_,_,_,_,rfl⟩ := h
    rw [mem_singleton.mp hc]
    exact ⟨rfl,hd⟩
  | call addr input keys => exact writes_of_call h hc
  | deployTrocto code =>
    simp only [executeAction,executeDeployTrocto,bind_eq_ok,ensure_eq_ok,pure_ok_iff] at h
    obtain ⟨_,_,_,hd,_,_,_,_,_,_,_,_,_,_,_,_,rfl⟩ := h
    rw [mem_singleton.mp hc]
    exact ⟨rfl,hd⟩
  | callTrocto addr input keys =>
    simp only [executeAction,bind_eq_ok] at h
    obtain ⟨_,_,h⟩ := h
    exact writes_of_callTrocto h hc

end Actions

section Sessions

variable {b : Backend} {rules : Rules} {view : View} {fs : NativeFaults} {tx : Transaction}
  {out : TransactionOutput} {change : StateChange} {key : StateKey}

/-- What an accepted contract transaction has found and checked. -/
structure Runs (b : Backend) (rules : Rules) (view : View) (faults : NativeFaults) (tx : Transaction)
    (payload : ContractPayload) (sender next : AccountState) (effects : Effects) : Prop where
  decoded : ContractPayload.decode tx.payload = .ok payload
  account : readAccount view tx.sender = .ok (some sender)
  accepted : SignedValidator.Accepts b.crypto sender payload.publicKey rules.capacity rules.prices tx
    rules.context
  declared : accountKey tx.sender ∈ tx.accessList
  ran : executeAction b view tx rules.context faults payload.action = .ok effects
  fits : effects.resources.fitsIn tx.resourceLimit ∧ effects.resources.fitsIn rules.capacity
  charged : ∃ fee, effects.resources.checkedCost rules.prices = some fee ∧
    Resources.checkedAddU64 sender.nonce 1 = some next.nonce ∧
    Resources.checkedSubU64 sender.balance fee = some next.balance

lemma runs_of_executeContract
    (h : executeContract b view tx rules.context rules.capacity rules.prices fs = .ok out) :
    ∃ pl sender next effects, Runs b rules view fs tx pl sender next effects ∧
      out.diff = (effects.diff.put (accountKey tx.sender) next.toBytes).sortCanonical ∧
      out.receipt.resources = effects.resources := by
  simp only [executeContract,bind_eq_ok,ofTransaction_eq_ok,ofState_eq_ok,okOr_eq_ok,
    ensure_eq_ok,pure_ok_iff] at h
  obtain ⟨pl,hp,fd,hac,sender,rfl,validated,hv,_,hd,effects,
    he,_,hfi,fee,hf,nonce,hn,balance,hb,rfl⟩ := h
  obtain ⟨ha,-⟩ := SignedValidator.validate_forSender.mp hv
  exact ⟨pl,sender,⟨nonce,balance⟩,effects,⟨hp,hac,ha,hd, he,hfi,fee,hf,hn,hb⟩,rfl,rfl⟩

lemma output_cases (h : SignedSession.output b rules view fs tx = .ok out) :
    (tx.lane = .payments ∧ ∃ s', (PaymentSession.new view rules.context rules.capacity
      rules.prices).execute b.crypto tx = .ok (out,s')) ∨
    (tx.lane = .contracts ∧ rules.contracts = true ∧
      executeContract b view tx rules.context rules.capacity rules.prices fs = .ok out) := by
  unfold SignedSession.output at h
  split at h
  · next hl =>
    simp only [bind_eq_ok,pure_ok_iff] at h
    obtain ⟨⟨_,s'⟩,hr,rfl⟩ := h
    exact .inl ⟨hl,s',hr⟩
  · next hl =>
    split at h
    · next ha => exact .inr ⟨hl,ha,h⟩
    · cases h
  · cases h

lemma writes_of_output (h : SignedSession.output b rules view fs tx = .ok out)
    (hc : change ∈ out.diff.changes) : MayWrite b tx change.key ∧ change.key ∈ tx.accessList := by
  obtain ⟨hl,s',hp⟩ | ⟨hl,_,hr⟩ := output_cases h
  · obtain ⟨payment,sender,after,used,hpa,hdi,-⟩ := pays_of_execute hp
    rw [hdi] at hc
    obtain hk | hk := mem_diff hc <;> rw [hk]
    · exact ⟨.inl rfl,hpa.declared.1⟩
    · exact ⟨.inr (.inl ⟨payment,hl,hpa.decoded,rfl⟩),hpa.declared.2⟩
  · obtain ⟨pl,sender,next,effects,hru,hdi,-⟩ := runs_of_executeContract hr
    rw [hdi,mem_sortCanonical] at hc
    rcases mem_append.mp hc with hc | hc
    · obtain ⟨hw,hd⟩ := writes_of_action hru.ran hc
      exact ⟨.inr (.inr ⟨pl,hl,hru.decoded,hw⟩),hd⟩
    · rw [mem_singleton.mp hc]
      exact ⟨.inl rfl,hru.declared⟩

lemma declared_of_output (h : SignedSession.output b rules view fs tx = .ok out) :
    accountKey tx.sender ∈ tx.accessList := by
  obtain ⟨-,s',hp⟩ | ⟨-,-,hr⟩ := output_cases h
  · obtain ⟨payment,sender,after,used,hpa,-⟩ := pays_of_execute hp
    exact hpa.declared.1
  · obtain ⟨pl,sender,next,effects,hru,-⟩ := runs_of_executeContract hr
    exact hru.declared

lemma MayWrite.family (h : MayWrite b tx key) :
    KeyFamily.account.Has key ∨ KeyFamily.state.Has key ∨ KeyFamily.troctoState.Has key ∨
    ∃ pl code, tx.lane = .contracts ∧ ContractPayload.decode tx.payload = .ok pl ∧
      (pl.action = .deploy code ∧ KeyFamily.code.Has key ∨
        pl.action = .deployTrocto code ∧ KeyFamily.troctoCode.Has key) := by
  rcases h with rfl | ⟨payment,_,_,rfl⟩ | ⟨pl,hl,hp,hw⟩
  · exact .inl (KeyFamily.has_account _)
  · exact .inl (KeyFamily.has_account _)
  · cases ha : pl.action with
    | deploy code =>
      rw [ha] at hw
      cases hw
      exact .inr (.inr (.inr ⟨pl,code,hl,hp,.inl ⟨ha,KeyFamily.has_code _⟩⟩))
    | deployTrocto code =>
      rw [ha] at hw
      cases hw
      exact .inr (.inr (.inr ⟨pl,code,hl,hp,.inr ⟨ha,KeyFamily.has_troctoCode _⟩⟩))
    | call addr input keys =>
      rw [ha] at hw
      obtain ⟨localKey,_,rfl⟩ := hw
      exact .inr (.inl (KeyFamily.has_state _ _ _))
    | callTrocto addr input keys =>
      rw [ha] at hw
      obtain ⟨localKey,_,rfl⟩ := hw
      exact .inr (.inr (.inl (KeyFamily.has_troctoState _ _ _)))

lemma readOnlyCode_eq_some (h : readOnlyCode tx = some key) :
    ∃ pl addr input keys, ContractPayload.decode tx.payload = .ok pl ∧
      (pl.action = .call addr input keys ∧ key = contractCodeKey addr ∨
        pl.action = .callTrocto addr input keys ∧ key = troctoContractCodeKey addr) := by
  unfold readOnlyCode at h
  split at h
  · cases h
  · split at h
    · cases h
    · next pl hp =>
      split at h <;> cases h
      · next addr input keys ha =>
        exact ⟨pl,addr,input,keys,hp,.inl ⟨ha,rfl⟩⟩
      · next addr input keys ha =>
        exact ⟨pl,addr,input,keys,hp,.inr ⟨ha,rfl⟩⟩

lemma MayWrite.mode (h : MayWrite b tx key) : accessMode key (readOnlyCode tx) = .write := by
  unfold accessMode
  split
  · next heq =>
    exfalso
    obtain ⟨pl,addr,input,keys,hp,hco⟩ := readOnlyCode_eq_some heq
    have hfa : KeyFamily.code.Has key ∨ KeyFamily.troctoCode.Has key := by
      rcases hco with ⟨_,rfl⟩ | ⟨_,rfl⟩
      · exact .inl (KeyFamily.has_code _)
      · exact .inr (KeyFamily.has_troctoCode _)
    have hn : ∀ f : KeyFamily, f.Has key → f = .code ∨ f = .troctoCode := fun f hf =>
      hfa.imp hf.unique hf.unique
    rcases h.family with hf | hf | hf | ⟨payload',code,_,hp',hde⟩
    · simpa using hn _ hf
    · simpa using hn _ hf
    · simpa using hn _ hf
    · -- A deployment is not a call.
      cases hp.symm.trans hp'
      rcases hco with ⟨hc,_⟩ | ⟨hc,_⟩ <;> rcases hde with ⟨hd,_⟩ | ⟨hd,_⟩ <;>
        cases hc.symm.trans hd
  · rfl

lemma MayWrite.ne_runtimeKey (h : MayWrite b tx key) : key ≠ runtimeKey := by
  rintro rfl
  rcases h.family with hf | hf | hf | ⟨pl,code,_,_,⟨_,hf⟩ | ⟨_,hf⟩⟩ <;>
    cases hf.unique KeyFamily.has_runtime

end Sessions

def Agree (tx : Transaction) (view view' : View) : Prop :=
  (∀ key ∈ tx.accessList, view key = view' key) ∧ view runtimeKey = view' runtimeKey

section Reads

variable {b : Backend} {tx : Transaction} {view view' : View} {ctx : ValidationContext}
  {fs : NativeFaults}

lemma readAccount_congr {addr : Address} (h : view (accountKey addr) = view' (accountKey addr)) :
    readAccount view addr = readAccount view' addr := by
  simp only [readAccount,h]

lemma loadState_congr (h : Agree tx view view') (addr : Address) (keys : List Bytes) :
    loadState b view tx addr keys = loadState b view' tx addr keys := by
  unfold loadState
  congr 1
  funext acc key
  refine bind_congr_ok fun _ hd => ?_
  rw [h.1 _ (ensure_eq_ok.mp hd)]

lemma executeDeploy_congr (h : Agree tx view view') (code : Bytes) :
    executeDeploy b view tx code = executeDeploy b view' tx code := by
  refine bind_congr_ok fun _ hd => ?_
  rw [h.1 _ (ensure_eq_ok.mp hd)]

lemma executeCall_congr (h : Agree tx view view') (addr : Address) (input : Bytes)
    (keys : List Bytes) :
    executeCall b view tx ctx addr input keys = executeCall b view' tx ctx addr input keys := by
  refine bind_congr_ok fun _ hd => ?_
  rw [h.1 _ (ensure_eq_ok.mp hd),loadState_congr h]

lemma executeDeployTrocto_congr (h : Agree tx view view') (code : Bytes) :
    executeDeployTrocto b view tx fs code = executeDeployTrocto b view' tx fs code := by
  refine bind_congr_ok fun _ hd => ?_
  rw [h.1 _ (ensure_eq_ok.mp hd)]

lemma loadSlot_congr {addr : Address} {keys : List Bytes}
    (h : ∀ key ∈ keys, view (troctoContractStateKey b.crypto.blake2s addr key) =
      view' (troctoContractStateKey b.crypto.blake2s addr key)) :
    loadSlot b view addr keys = loadSlot b view' addr keys := by
  funext key
  unfold loadSlot
  split
  · next hk => rw [h key hk]
  · rfl

lemma executeCallTrocto_congr (h : Agree tx view view') (addr : Address) (input : Bytes)
    (keys : List Bytes) :
    executeCallTrocto b view tx ctx fs addr input keys =
      executeCallTrocto b view' tx ctx fs addr input keys := by
  refine bind_congr_ok fun _ hc => ?_
  rw [h.1 _ (ensure_eq_ok.mp hc)]
  refine bind_congr_ok fun _ _ => bind_congr_ok fun _ _ => bind_congr_ok fun _ _ =>
    bind_congr_ok fun _ _ => bind_congr_ok fun _ hd => ?_
  rw [loadSlot_congr fun key hk => h.1 _ (ensure_eq_ok.mp hd key hk)]

lemma executeAction_congr (h : Agree tx view view') (action : ContractAction) :
    executeAction b view tx ctx fs action = executeAction b view' tx ctx fs action := by
  have hp : requireNativeProfile view tx = requireNativeProfile view' tx := by
    simp only [requireNativeProfile,h.2]
  cases action with
  | deploy code => exact executeDeploy_congr h code
  | call addr input keys => exact executeCall_congr h addr input keys
  | deployTrocto code => simp only [executeAction,hp,executeDeployTrocto_congr h]
  | callTrocto addr input keys => simp only [executeAction,hp,executeCallTrocto_congr h]

variable {rules : Rules} {out out' : TransactionOutput} {faults' : NativeFaults}

lemma executeContract_congr (h : Agree tx view view') (hs : accountKey tx.sender ∈ tx.accessList)
    (cap prices : Resources) :
    executeContract b view tx ctx cap prices fs = executeContract b view' tx ctx cap prices fs := by
  simp only [executeContract,readAccount_congr (h.1 _ hs),executeAction_congr h]

lemma transfer_congr {s s' : PaymentSession} {payment : Payment}
    (h : s.account payment.recipient = s'.account payment.recipient) (nonce balance : UInt64) :
    s.transfer tx payment nonce balance = s'.transfer tx payment nonce balance := by
  simp only [PaymentSession.transfer,h]

lemma account_new {cap prices : Resources} {addr : Address}
    (h : view (accountKey addr) = view' (accountKey addr)) :
    (PaymentSession.new view ctx cap prices).account addr =
      (PaymentSession.new view' ctx cap prices).account addr := by
  simp only [PaymentSession.account,PaymentSession.new,OrderedMap.get_empty,readAccount_congr h]

lemma output_congr (h : Agree tx view view') (hs : accountKey tx.sender ∈ tx.accessList) :
    SignedSession.output b rules view fs tx = SignedSession.output b rules view' fs tx := by
  unfold SignedSession.output
  split
  · simp only [PaymentSession.execute,bind_assoc,account_new (h.1 _ hs)]
    refine bind_congr_ok fun payment _ => bind_congr_ok fun _ _ => bind_congr_ok fun _ _ =>
      bind_congr_ok fun _ _ => bind_congr_ok fun _ _ => bind_congr_ok fun _ _ =>
      bind_congr_ok fun _ hd => ?_
    have hr : (PaymentSession.new view rules.context rules.capacity rules.prices).account
        payment.recipient = (PaymentSession.new view' rules.context rules.capacity
          rules.prices).account payment.recipient := account_new (h.1 _ (ensure_eq_ok.mp hd).2)
    simp only [transfer_congr hr]
    rfl
  · rw [executeContract_congr h hs]
  · rfl

lemma ofNative_le {α : Type} {x y : Except NativeError α} (h : OkLe x y) :
    OkLe (ofNative x) (ofNative y) :=
  fun a hx => ofNative_eq_ok.mpr (h a (ofNative_eq_ok.mp hx))

lemma nativeProgram_le (fails : Bool) (source : Bytes) :
    OkLe (nativeProgram b fails source) (nativeProgram b false source) := by
  cases fails with
  | false => exact .refl _
  | true => exact fun _ h => by cases h

lemma nativeExecute_le (fails : Bool) (program : Trocto.Program) (input : UInt64)
    (ctx : Trocto.ContractContext) (fuel : UInt64) :
    OkLe (nativeExecute fails program input ctx fuel)
      (nativeExecute false program input ctx fuel) :=
  .after fun _ _ => .bind (fun _ _ => ensure_of rfl) fun _ _ => .refl _

lemma executeAction_le (action : ContractAction) : OkLe (executeAction b view tx ctx fs action)
      (executeAction b view tx ctx .available action) := by
  cases action with
  | deploy code => exact .refl _
  | call addr input keys => exact .refl _
  | deployTrocto code =>
    exact .after fun _ _ => .after fun _ _ => .after fun _ _ => .after fun _ _ => .after fun _ _ =>
      .after fun _ _ => .after fun _ _ => .bind (ofNative_le (nativeProgram_le _ _)) fun _ _ => .refl _
  | callTrocto addr input keys =>
    exact .after fun _ _ => .after fun _ _ => .after fun _ _ => .after fun _ _ => .after fun _ _ =>
      .bind (ofNative_le (nativeProgram_le _ _)) fun _ _ => .after fun _ _ => .after fun _ _ =>
      .after fun _ _ => .after fun _ _ => .after fun _ _ =>
      .bind (ofNative_le (nativeExecute_le _ _ _ _ _)) fun _ _ => .refl _

lemma output_le : OkLe (SignedSession.output b rules view fs tx)
    (SignedSession.output b rules view .available tx) := by
  unfold SignedSession.output
  split
  · exact .refl _
  · split
    · exact .after fun _ _ => .after fun _ _ => .after fun _ _ => .after fun _ _ => .after fun _ _ =>
        .bind (executeAction_le _) fun _ _ => .refl _
    · exact .refl _
  · exact .refl _

lemma output_unique (ha : Agree tx view view')
    (h : SignedSession.output b rules view fs tx = .ok out)
    (h' : SignedSession.output b rules view' faults' tx = .ok out') : out = out' := by
  have heq := output_le out h
  rw [output_congr ha (declared_of_output h),output_le out' h'] at heq
  exact (Except.ok.inj heq).symm

end Reads

end Astrolune.Execution

import Mathlib.Algebra.BigOperators.Finprod
import Mathlib.Data.Set.Finite.List
import Astrolune.Execution.Serial

namespace Astrolune.Execution
open Lib Codec Crypto State List Option

/-- A view with the changes of a diff over it. -/
def landed (view : View) (diff : StateDiff) : View := Overlay.get (Overlay.apply ⟨view, .empty⟩ diff)

section Changes

variable {view view' : View} {diff : StateDiff} {change : StateChange} {key : StateKey} {a : Address}
  {account : AccountState}

lemma overlay_apply_get (o : Overlay) (diff : StateDiff) : (o.apply diff).get = landed o.get diff := by
  funext key
  simp only [landed,Overlay.get,Overlay.apply,Overlay.applyDiff,
    get_foldl_applyChange diff.changes o.values key]
  cases (diff.changes.foldl Overlay.applyChange .empty).get key <;> rfl

lemma landed_congr (h : view key = view' key) (diff : StateDiff) :
    landed view diff key = landed view' diff key := by
  simp only [landed,Overlay.get,Overlay.apply,h]

lemma landed_other (h : ∀ change ∈ diff.changes, change.key ≠ key) : landed view diff key = view key := by
  simp only [landed,Overlay.get,Overlay.apply,get_applyDiff_other h,OrderedMap.get_empty]

lemma landed_of_mem (hm : change ∈ diff.changes)
    (hu : ∀ other ∈ diff.changes, other.key = change.key → other = change) :
    landed view diff change.key = .ok (written change) := by
  have hg : (Overlay.applyDiff .empty diff).get change.key = some (written change) := by
    obtain ⟨cs⟩ := diff
    simp only [Overlay.applyDiff] at hm hu ⊢
    induction cs using reverseRecOn with
    | nil => cases hm
    | append_singleton rest last ih =>
      rw [foldl_append,foldl_cons,foldl_nil,get_applyChange]
      split
      · next heq => rw [hu last (by simp) heq.symm]
      · next hne =>
        refine ih ?_ fun other ho => hu other (mem_append_left _ ho)
        rcases mem_append.mp hm with hm | hm
        · exact hm
        · exact absurd (congrArg StateChange.key (mem_singleton.mp hm)) hne
  simp only [landed,Overlay.get,Overlay.apply,hg]

lemma accountKey_injective : Function.Injective accountKey := fun _ _ h =>
  Subtype.ext (append_cancel_left h)

lemma readAccount_other (h : ∀ change ∈ diff.changes, change.key ≠ accountKey a) :
    readAccount (landed view diff) a = readAccount view a :=
  readAccount_congr (landed_other h)

lemma readAccount_landed (hm : .put (accountKey a) account.toBytes ∈ diff.changes)
    (hu : ∀ other ∈ diff.changes, other.key = accountKey a → other = .put (accountKey a) account.toBytes) :
    readAccount (landed view diff) a = .ok (some account) := by
  have hl := @landed_of_mem view diff _ hm hu
  simp only [StateChange.key,written] at hl
  have hd : AccountState.decode account.toBytes = .ok account :=
    ((Reads.readU64 _).bind (Reads.readU64 _).bind_pure).whole
  simp only [readAccount,hl,ok_bind,decodeAccount,hd,failAs_ok,pure_eq_ok]

end Changes

section Amounts

variable {a b c : UInt64}

lemma toNat_checkedAdd (h : Resources.checkedAddU64 a b = some c) : c.toNat = a.toNat + b.toNat := by
  unfold Resources.checkedAddU64 at h
  split at h <;> cases h
  next hl => rw [UInt64.toNat_add,Nat.mod_eq_of_lt hl]

lemma toNat_checkedMul (h : Resources.checkedMulU64 a b = some c) : c.toNat = a.toNat * b.toNat := by
  unfold Resources.checkedMulU64 at h
  split at h <;> cases h
  next hl => rw [UInt64.toNat_mul,Nat.mod_eq_of_lt hl]

lemma toNat_checkedSub (h : Resources.checkedSubU64 a b = some c) : c.toNat + b.toNat = a.toNat := by
  unfold Resources.checkedSubU64 at h
  split at h <;> cases h
  next hl =>
    have := UInt64.le_iff_toNat_le.mp hl
    rw [UInt64.toNat_sub_of_le _ _ hl]
    omega

lemma toNat_checkedCost {r prices : Resources} (h : r.checkedCost prices = some c) :
    c.toNat = r.cost prices := by
  simp only [Resources.checkedCost,bind_eq_bind,bind_eq_some_iff] at h
  obtain ⟨c,hc,m,hm,cm,hcm,i,hi,cmi,hcmi,n,hn,ha⟩ := h
  rw [toNat_checkedAdd ha,toNat_checkedAdd hcmi,toNat_checkedAdd hcm,toNat_checkedMul hc,
    toNat_checkedMul hm,toNat_checkedMul hi,toNat_checkedMul hn,Resources.cost]

end Amounts

/-- What an accepted transaction does to the accounts: its sender pays the fee, and the amount of a
payment to another account. -/
structure Settlement (view after : View) (tx : Transaction) (fee : Nat) (sender next : AccountState)
    (paid : Option (Address × Nat)) : Prop where
  account : readAccount view tx.sender = .ok (some sender)
  charged : readAccount after tx.sender = .ok (some next)
  nonce : tx.nonce = sender.nonce ∧ next.nonce.toNat = sender.nonce.toNat + 1
  balance : next.balance.toNat + fee + paid.elim 0 Prod.snd = sender.balance.toNat
  received : ∀ p ∈ paid, p.1 ≠ tx.sender ∧ ∃ old new, readAccount view p.1 = .ok old ∧
    readAccount after p.1 = .ok (some new) ∧ new.nonce = (old.getD ⟨0, 0⟩).nonce ∧
    new.balance.toNat = (old.getD ⟨0, 0⟩).balance.toNat + p.2
  others : ∀ a, a ≠ tx.sender → (∀ p ∈ paid, a ≠ p.1) → readAccount after a = readAccount view a

section Outputs

variable {b : Backend} {rules : Rules} {view after : View} {faults : NativeFaults} {tx : Transaction}
  {out : TransactionOutput} {change : StateChange} {sender next : AccountState} {fee : Nat}
  {paid : Option (Address × Nat)} {action : ContractAction} {key : StateKey} {a : Address}

lemma mem_diff_iff {payment : Payment} {recipient : Option AccountState} :
    change ∈ (PaymentSession.diff tx payment sender recipient).changes ↔
      change = .put (accountKey tx.sender) sender.toBytes ∨
        ∃ account ∈ recipient, change = .put (accountKey payment.recipient) account.toBytes := by
  cases recipient <;> simp [PaymentSession.diff,mem_sortCanonical,StateDiff.put]

lemma settlement_of_payment {c : Suite} {capacity prices : Resources} {ctx : ValidationContext}
    {s : PaymentSession} (h : (PaymentSession.new view ctx capacity prices).execute c tx = .ok (out,s)) :
    ∃ sender next paid, Settlement view (landed view out.diff) tx (out.receipt.resources.cost prices)
      sender next paid := by
  obtain ⟨payment,sender,after,used,hp,hd,hr⟩ := pays_of_execute h
  have hv : ∀ a found, (PaymentSession.new view ctx capacity prices).account a = .ok found →
      readAccount view a = .ok found := fun a found ha => ofState_eq_ok.mp ha
  obtain ⟨fee,nonce,balance,hf,hn,hb,ht⟩ := hp.charged
  have hfe : fee.toNat = out.receipt.resources.cost prices := by
    rw [hr]
    exact toNat_checkedCost hf
  have hno := toNat_checkedAdd hn
  have hba := toNat_checkedSub hb
  rw [hd]
  unfold PaymentSession.transfer at ht
  split at ht
  · -- A payment to its own sender changes one account.
    cases ht
    refine ⟨sender,_,none,hv _ _ hp.account,readAccount_landed (mem_diff_iff.mpr (.inl rfl)) ?_,
      ⟨hp.accepted.nonce.1,hno⟩,?_,nofun,fun a ha _ => readAccount_other ?_⟩
    · intro other ho _
      simpa using mem_diff_iff.mp ho
    · rw [elim_none,← hfe]
      exact hba
    · intro change hc heq
      simp only [mem_diff_iff,mem_def,reduceCtorEq,false_and,exists_false,or_false] at hc
      subst hc
      exact ha (accountKey_injective heq).symm
  · next hne =>
    simp only [bind_eq_ok,okOr_eq_ok,pure_ok_iff] at ht
    obtain ⟨left,hl,found,hfo,received,hre,rfl⟩ := ht
    have hle := toNat_checkedSub hl
    have hk : accountKey tx.sender ≠ accountKey payment.recipient := fun heq =>
      hne (accountKey_injective heq)
    have hm : ∀ change ∈ (PaymentSession.diff tx payment ⟨nonce,left⟩
        (some ⟨(found.getD ⟨0,0⟩).nonce,received⟩)).changes,
        change = .put (accountKey tx.sender) (AccountState.toBytes ⟨nonce,left⟩) ∨
        change = .put (accountKey payment.recipient)
          (AccountState.toBytes ⟨(found.getD ⟨0,0⟩).nonce,received⟩) := by
      intro change hc
      simpa using mem_diff_iff.mp hc
    refine ⟨sender,_,some (payment.recipient,payment.amount.toNat),hv _ _ hp.account,
      readAccount_landed (mem_diff_iff.mpr (.inl rfl)) ?_,⟨hp.accepted.nonce.1,hno⟩,?_,?_,
      fun a ha hq => readAccount_other ?_⟩
    · intro other ho heq
      rcases hm other ho with rfl | rfl
      · rfl
      · exact absurd heq.symm hk
    · change left.toNat + _ + payment.amount.toNat = _
      omega
    · rintro p ⟨⟩
      refine ⟨Ne.symm hne,found,_,hv _ _ hfo,
        readAccount_landed (mem_diff_iff.mpr (.inr ⟨_,rfl,rfl⟩)) ?_,rfl,toNat_checkedAdd hre⟩
      intro other ho heq
      rcases hm other ho with rfl | rfl
      · exact absurd heq hk
      · rfl
    · intro change hc heq
      rcases hm change hc with rfl | rfl
      · exact ha (accountKey_injective heq).symm
      · exact hq _ rfl (accountKey_injective heq).symm

lemma ActionWrites.family (h : ActionWrites b tx key action) :
    KeyFamily.state.Has key ∨ KeyFamily.troctoState.Has key ∨ KeyFamily.code.Has key ∨
      KeyFamily.troctoCode.Has key := by
  cases action with
  | deploy code => exact .inr (.inr (.inl ((show key = _ from h) ▸ KeyFamily.has_code _)))
  | deployTrocto code => exact .inr (.inr (.inr ((show key = _ from h) ▸ KeyFamily.has_troctoCode _)))
  | call address input keys =>
    obtain ⟨localKey,_,rfl⟩ := h
    exact .inl (KeyFamily.has_state _ _ _)
  | callTrocto address input keys =>
    obtain ⟨localKey,_,rfl⟩ := h
    exact .inr (.inl (KeyFamily.has_troctoState _ _ _))

lemma settlement_of_output (h : SignedSession.output b rules view faults tx = .ok out) :
    ∃ sender next paid, Settlement view (landed view out.diff) tx
      (out.receipt.resources.cost rules.prices) sender next paid := by
  obtain ⟨-,s,hp⟩ | ⟨-,-,hc⟩ := output_cases h
  · exact settlement_of_payment hp
  · obtain ⟨payload,sender,next,effects,hr,hd,hre⟩ := runs_of_executeContract hc
    obtain ⟨fee,hf,hn,hb⟩ := hr.charged
    have hba := toNat_checkedSub hb
    have hk : ∀ change ∈ out.diff.changes, ∀ a, change.key = accountKey a →
        change = .put (accountKey tx.sender) next.toBytes := by
      intro change hm a heq
      rw [hd,mem_sortCanonical] at hm
      rcases mem_append.mp hm with hm | hm
      · -- A contract's own writes are in other families than the accounts.
        have hw := (writes_of_action hr.ran hm).1.family
        rw [heq] at hw
        rcases hw with hw | hw | hw | hw <;> cases hw.unique (KeyFamily.has_account a)
      · exact mem_singleton.mp hm
    refine ⟨sender,next,none,hr.account,readAccount_landed ?_ fun other ho heq => hk other ho _ heq,
      ⟨hr.accepted.nonce.1,toNat_checkedAdd hn⟩,?_,nofun,
      fun a ha _ => readAccount_other fun change hm heq => ?_⟩
    · rw [hd,mem_sortCanonical]
      exact mem_append_right _ (mem_singleton.mpr rfl)
    · rw [elim_none,hre,← toNat_checkedCost hf]
      exact hba
    · rw [hk change hm a heq] at heq
      exact ha (accountKey_injective heq).symm

lemma Settlement.advances (h : Settlement view after tx fee sender next paid) {account : AccountState}
    (ha : readAccount view a = .ok (some account)) : ∃ found, readAccount after a = .ok (some found) ∧
      found.nonce.toNat = account.nonce.toNat + if tx.sender = a then 1 else 0 := by
  by_cases heq : tx.sender = a
  · subst heq
    cases h.account.symm.trans ha
    exact ⟨next,h.charged,by rw [if_pos rfl,h.nonce.2]⟩
  · rw [if_neg heq]
    by_cases hp : ∃ p ∈ paid, a = p.1
    · obtain ⟨p,hp,rfl⟩ := hp
      obtain ⟨-,old,new,ho,hn,hno,-⟩ := h.received p hp
      cases ho.symm.trans ha
      exact ⟨new,hn,congrArg UInt64.toNat hno⟩
    · exact ⟨account,(h.others a (Ne.symm heq) fun p hm he => hp ⟨p,hm,he⟩).trans ha,rfl⟩

def balance (view : View) (a : Address) : Nat :=
  match readAccount view a with
  | .ok (some account) => account.balance.toNat
  | _ => 0

/-- The balances of all addresses. -/
noncomputable def supply (view : View) : Nat := ∑ᶠ a : Address, balance view a

lemma balance_eq {account : AccountState} (h : readAccount view a = .ok (some account)) :
    balance view a = account.balance.toNat := by rw [balance,h]

lemma supply_of_settlement (h : Settlement view after tx fee sender next paid) :
    supply after + fee = supply view := by
  have : Finite UInt8 := .of_injective _ fun _ _ => UInt8.toFin_inj.mp
  have : Finite Address := (finite_length_eq UInt8 32).to_subtype
  cases nonempty_fintype Address
  have hs := balance_eq h.account
  have hn := balance_eq h.charged
  have hb := h.balance
  simp only [supply,finsum_eq_sum_of_fintype]
  rw [← Finset.add_sum_erase _ (balance after) (Finset.mem_univ tx.sender),
    ← Finset.add_sum_erase _ (balance view) (Finset.mem_univ tx.sender)]
  cases paid with
  | none =>
    have hr : ∑ a ∈ Finset.univ.erase tx.sender, balance after a =
        ∑ a ∈ Finset.univ.erase tx.sender, balance view a := by
      refine Finset.sum_congr rfl fun a ha => ?_
      rw [balance,balance,h.others a (Finset.ne_of_mem_erase ha) nofun]
    rw [elim_none] at hb
    omega
  | some p =>
    obtain ⟨hp,old,new,ho,hne,-,hba⟩ := h.received p rfl
    have hm : p.1 ∈ Finset.univ.erase tx.sender := Finset.mem_erase.mpr ⟨hp,Finset.mem_univ _⟩
    have hr : ∑ a ∈ (Finset.univ.erase tx.sender).erase p.1, balance after a =
        ∑ a ∈ (Finset.univ.erase tx.sender).erase p.1, balance view a := by
      refine Finset.sum_congr rfl fun a ha => ?_
      obtain ⟨ha,hu⟩ := Finset.mem_erase.mp ha
      rw [balance,balance,h.others a (Finset.ne_of_mem_erase hu) (by rintro _ ⟨⟩; exact ha)]
    have hv : balance view p.1 = (old.getD ⟨0,0⟩).balance.toNat := by
      cases old with
      | none => rw [balance,ho]; rfl
      | some account => exact balance_eq ho
    have hw := balance_eq hne
    rw [← Finset.add_sum_erase _ (balance after) hm,← Finset.add_sum_erase _ (balance view) hm]
    rw [elim_some] at hb
    omega

lemma absent_of_output (h : SignedSession.output b rules view faults tx = .ok out)
    (hc : change ∈ out.diff.changes)
    (hf : KeyFamily.code.Has change.key ∨ KeyFamily.troctoCode.Has change.key) : view change.key = .ok none := by
  have hn : ∀ a, change.key ≠ accountKey a := by
    intro a heq
    rw [heq] at hf
    rcases hf with hf | hf <;> cases hf.unique (KeyFamily.has_account a)
  obtain ⟨-,s,hp⟩ | ⟨-,-,hr⟩ := output_cases h
  · obtain ⟨payment,sender,after,used,-,hd,-⟩ := pays_of_execute hp
    rw [hd] at hc
    rcases mem_diff hc with hk | hk <;> exact absurd hk (hn _)
  · obtain ⟨payload,sender,next,effects,hr,hd,-⟩ := runs_of_executeContract hr
    rw [hd,mem_sortCanonical] at hc
    rcases mem_append.mp hc with hc | hc
    · have hw := (writes_of_action hr.ran hc).1
      have ha := hr.ran
      cases hp : payload.action with
      | deploy code =>
        rw [hp] at hw ha
        simp only [executeAction,executeDeploy,bind_eq_ok,ofState_eq_ok,ensure_eq_ok] at ha
        obtain ⟨_,_,found,hv,_,rfl,_⟩ := ha
        exact (congrArg view hw).trans hv
      | deployTrocto code =>
        rw [hp] at hw ha
        simp only [executeAction,executeDeployTrocto,bind_eq_ok,ofState_eq_ok,ensure_eq_ok] at ha
        obtain ⟨_,_,_,_,found,hv,_,rfl,_⟩ := ha
        exact (congrArg view hw).trans hv
      | call address input keys =>
        rw [hp] at hw
        obtain ⟨localKey,_,hk⟩ := hw
        rcases hf with hf | hf <;> cases (hk ▸ hf).unique (KeyFamily.has_state _ _ _)
      | callTrocto address input keys =>
        rw [hp] at hw
        obtain ⟨localKey,_,hk⟩ := hw
        rcases hf with hf | hf <;> cases (hk ▸ hf).unique (KeyFamily.has_troctoState _ _ _)
    · exact absurd (congrArg StateChange.key (mem_singleton.mp hc)) (hn _)

/-- The keys that transactions write. -/
def Applied (key : StateKey) : Prop :=
  ∃ f ∈ [KeyFamily.account, .code, .troctoCode, .state, .troctoState], f.Has key

lemma MayWrite.applied (h : MayWrite b tx key) : Applied key := by
  rcases h.family with hf | hf | hf | ⟨_,_,_,_,⟨_,hf⟩ | ⟨_,hf⟩⟩ <;> exact ⟨_,by simp,hf⟩

lemma applied_account (a : Address) : Applied (accountKey a) := ⟨_,by simp,KeyFamily.has_account a⟩

end Outputs

structure Executed where
  rules : Rules
  tx : Transaction
  output : TransactionOutput

def Executed.fee (e : Executed) : Nat := e.output.receipt.resources.cost e.rules.prices

/-- Accepted transactions one after another, of any blocks. Between them the node itself may write
keys that transactions do not. -/
inductive Ledger (b : Backend) : View → List Executed → View → Prop
  | done (view : View) : Ledger b view [] view
  | execute {view now : View} {e : Executed} {run : List Executed} (faults : NativeFaults)
    (accepted : SignedSession.output b e.rules view faults e.tx = .ok e.output)
    (later : Ledger b (landed view e.output.diff) run now) : Ledger b view (e :: run) now
  | system {view view' now : View} {run : List Executed} (kept : ∀ key, Applied key → view' key = view key)
    (later : Ledger b view' run now) : Ledger b view run now

variable {b : Backend} {old now : View} {run : List Executed} {ru : Rules} {txs : List Transaction}
  {faults : Nat → NativeFaults} {s s' last : SignedSession} {indexes : List Nat}
  {outputs : List (Nat × TransactionOutput)}

lemma ledger_of_executeAll (h : executeAll b ru txs faults s indexes = .ok (outputs,last)) :
    ∃ run : List Executed, run.map Executed.output = outputs.map Prod.snd ∧
      Ledger b s.overlay.get run last.overlay.get := by
  induction indexes generalizing s outputs with
  | nil =>
    cases h
    exact ⟨[],rfl,.done _⟩
  | cons index rest ih =>
    simp only [executeAll,bind_eq_ok,okOr_eq_ok,pure_ok_iff,Prod.exists,Prod.mk.injEq] at h
    obtain ⟨tx,ht,out,next,hx,outs,_,hr,rfl,rfl⟩ := h
    obtain ⟨run,ho,hl⟩ := ih hr
    obtain ⟨ha,hs⟩ := SignedSession.execute_eq_ok hx
    rw [hs,overlay_apply_get] at hl
    exact ⟨⟨ru,tx,out⟩ :: run,by rw [map_cons,ho]; rfl,.execute (faults index) ha hl⟩

namespace SamplePayments

def wasm : Bytes := [0, 97, 115, 109, 1, 0, 0, 0]

/-- The accounts of the sample, two more, and a contract. -/
def coded : View := fun key =>
  if key ∈ [accountKey (address 6), accountKey (address 7)] then
    .ok (some (AccountState.toBytes ⟨0, 500⟩))
  else if key = contractCodeKey (address 9) then .ok (some wasm) else view key

/-- The payments, then a deployment, then a call of the contract. -/
def mixed : List Transaction := block ++
  [contract 6 (.deploy wasm) [contractCodeKey (contractAddress residueHash 7 (address 6) 0)],
   contract 7 (.call (address 9) [] []) [contractCodeKey (address 9)]]

/-- The block, executed on a state. -/
def executed (v : View) : Except ExecutionError (List (Nat × TransactionOutput) × SignedSession) :=
  executeAll backend rules mixed (fun _ => .available) (.new v) (range 5)

lemma coded_executed : (executed coded).isOk = true := by decide +kernel

lemma executed_ok {v : View} (h : (executed v).isOk = true) :
    ∃ outs last, executed v = .ok (outs,last) := by
  cases hx : executed v with
  | error e => rw [hx] at h; cases h
  | ok r => exact ⟨r.1,r.2,rfl⟩

lemma ledger_of_block :
    ∃ run : List Executed, ∃ now, run.length = 5 ∧ Ledger backend coded run now := by
  obtain ⟨outs,last,hx⟩ := executed_ok coded_executed
  obtain ⟨run,hr,hl⟩ := ledger_of_executeAll hx
  refine ⟨run,_,?_,hl⟩
  rw [← length_map,hr,length_map,← length_map Prod.fst,(executeAll_spec hx).1]
  rfl

end SamplePayments

/-- Transactions move balances and burn their fees. -/
theorem fees_are_burned (h : Ledger b old run now) : supply now + (run.map Executed.fee).sum = supply old := by
  induction h with
  | done old => rfl
  | execute faults ha _ ih =>
    obtain ⟨sender,next,paid,hs⟩ := settlement_of_output ha
    rw [map_cons,sum_cons,← supply_of_settlement hs,← ih]
    simp only [Executed.fee]
    omega
  | system hk _ ih =>
    rw [ih]
    simp only [supply,balance]
    congr 1
    funext a
    rw [readAccount_congr (hk _ (applied_account a))]

open SamplePayments in
theorem fees_are_burned_sample : ∃ run : List Executed, ∃ now, run.length = 5 ∧
    supply now + (run.map Executed.fee).sum = supply coded := by
  obtain ⟨run,now,hn,hl⟩ := ledger_of_block
  exact ⟨run,now,hn,fees_are_burned hl⟩

lemma nonce_of_ledger (h : Ledger b old run now) {a : Address} {account : AccountState}
    (ha : readAccount old a = .ok (some account)) : ∃ last, readAccount now a = .ok (some last) ∧
      last.nonce.toNat = account.nonce.toNat + run.countP (·.tx.sender = a) := by
  induction h generalizing account with
  | done old => exact ⟨account,ha,rfl⟩
  | @execute old now e run faults hx _ ih =>
    obtain ⟨sender,next,paid,hs⟩ := settlement_of_output hx
    obtain ⟨found,hf,hn⟩ := hs.advances ha
    obtain ⟨last,hl,hc⟩ := ih hf
    refine ⟨last,hl,?_⟩
    rw [hc,hn,countP_cons]
    simp only [decide_eq_true_eq]
    omega
  | system hk _ ih => exact ih ((readAccount_congr (hk _ (applied_account a))).trans ha)

lemma passed_of_ledger (h : Ledger b old run now) {e : Executed} (he : e ∈ run) :
    ∃ last, readAccount now e.tx.sender = .ok (some last) ∧ e.tx.nonce.toNat < last.nonce.toNat := by
  induction h with
  | done old => cases he
  | execute faults hx hl ih =>
    rcases mem_cons.mp he with rfl | he
    · obtain ⟨sender,next,paid,hs⟩ := settlement_of_output hx
      obtain ⟨last,hr,hn⟩ := nonce_of_ledger hl hs.charged
      refine ⟨last,hr,?_⟩
      rw [hs.nonce.1,hn,hs.nonce.2]
      omega
    · exact ih he
  | system _ _ ih => exact ih he

/-- Every account counts the transactions of its owner, so none is accepted twice. -/
theorem transactions_counted_once (h : Ledger b old run now) :
    (∀ a account, readAccount old a = .ok (some account) → ∃ last, readAccount now a = .ok (some last) ∧
      last.nonce.toNat = account.nonce.toNat + run.countP (·.tx.sender = a)) ∧
    ∀ e ∈ run, ∀ ru faults out, SignedSession.output b ru now faults e.tx ≠ .ok out := by
  refine ⟨fun a account ha => nonce_of_ledger h ha,fun e he ru faults out ho => ?_⟩
  obtain ⟨last,hr,hn⟩ := passed_of_ledger h he
  obtain ⟨sender,next,paid,hs⟩ := settlement_of_output ho
  cases hs.account.symm.trans hr
  rw [hs.nonce.1] at hn
  exact Nat.lt_irrefl _ hn

open SamplePayments in
theorem transactions_counted_once_sample : ∃ run : List Executed, ∃ now, run.length = 5 ∧
    ∀ e ∈ run, ∀ ru faults out, SignedSession.output backend ru now faults e.tx ≠ .ok out := by
  obtain ⟨run,now,hn,hl⟩ := ledger_of_block
  exact ⟨run,now,hn,(transactions_counted_once hl).2⟩

/-- Code that is stored stays as it is. -/
theorem deployed_code_kept (h : Ledger b old run now) (key : StateKey) (code : Bytes)
    (hf : KeyFamily.code.Has key ∨ KeyFamily.troctoCode.Has key) (hv : old key = .ok (some code)) :
    now key = .ok (some code) := by
  induction h with
  | done old => exact hv
  | execute faults hx _ ih =>
    refine ih ((landed_other fun change hc heq => ?_).trans hv)
    subst heq
    cases (absent_of_output hx hc hf).symm.trans hv
  | system hk _ ih =>
    refine ih ((hk key ?_).trans hv)
    rcases hf with hf | hf <;> exact ⟨_,by simp,hf⟩

open SamplePayments in
theorem deployed_code_kept_sample : ∃ run : List Executed, ∃ now : View, run.length = 5 ∧
    now (contractCodeKey (address 9)) = .ok (some wasm) := by
  have hc : coded (contractCodeKey (address 9)) = .ok (some wasm) := by decide +kernel
  obtain ⟨run,now,hn,hl⟩ := ledger_of_block
  exact ⟨run,now,hn,deployed_code_kept hl _ _ (.inl (KeyFamily.has_code _)) hc⟩

lemma writes_of_executeAll (h : executeAll b ru txs faults s indexes = .ok (outputs,last))
    {e : Nat × TransactionOutput} (he : e ∈ outputs) : ∃ tx, txs[e.1]? = some tx ∧ ∀ change ∈ e.2.diff.changes,
      MayWrite b tx change.key ∧ change.key ∈ tx.accessList ∧ Applied change.key := by
  obtain ⟨_,_,_,_,tx,_,_,ht,ho⟩ := executed_of_mem h he
  refine ⟨tx,ht,fun change hc => ?_⟩
  obtain ⟨hm,hd⟩ := writes_of_output ho hc
  exact ⟨hm,hd,hm.applied⟩

/-- The outputs of a block write what their transactions declare, and nothing that the node itself
keeps. -/
theorem block_writes_confined (h : executeAll b ru txs faults s indexes = .ok (outputs,last)) :
    (∀ e ∈ outputs, ∃ tx, txs[e.1]? = some tx ∧ ∀ change ∈ e.2.diff.changes,
      MayWrite b tx change.key ∧ change.key ∈ tx.accessList ∧ Applied change.key) ∧
    ∀ key, ¬Applied key → last.overlay.get key = s.overlay.get key := by
  refine ⟨fun e he => writes_of_executeAll h he,fun key hk => ?_⟩
  -- No output writes the key, so dropping them all reads the same.
  have hg := @get_applyOutputs_filter s.overlay.values s.overlay.values key outputs (fun _ => false) rfl
    fun e he _ change hc heq => by
      obtain ⟨tx,-,hm⟩ := writes_of_executeAll h he
      exact hk (heq ▸ (hm change hc).2.2)
  rw [filter_false] at hg
  simp only [(executeAll_spec h).2,Overlay.get,hg]
  rfl

open SamplePayments in
theorem block_writes_confined_sample :
    ∃ outs : List (Nat × TransactionOutput), outs.map Prod.fst = [0, 1, 2, 3, 4] ∧
    ∀ e ∈ outs, ∀ change ∈ e.2.diff.changes, Applied change.key := by
  obtain ⟨outs,last,h⟩ := executed_ok coded_executed
  refine ⟨outs,(executeAll_spec h).1,fun e he change hc => ?_⟩
  obtain ⟨tx,-,hw⟩ := (block_writes_confined h).1 e he
  exact (hw change hc).2.2

/-- The keys that the transactions of a block declare decide its outputs: nothing else of the state
reaches them. -/
theorem declared_keys_decide (h : executeAll b ru txs faults s indexes = .ok (outputs,last)) (hu : s'.used = s.used)
    (ha : ∀ index ∈ indexes, ∀ tx ∈ txs[index]?, Agree tx s.overlay.get s'.overlay.get) :
    ∃ last', executeAll b ru txs faults s' indexes = .ok (outputs,last') ∧ last'.used = last.used := by
  induction indexes generalizing s s' outputs with
  | nil =>
    cases h
    exact ⟨s',rfl,hu⟩
  | cons index rest ih =>
    simp only [executeAll,bind_eq_ok,okOr_eq_ok,pure_ok_iff,Prod.exists,Prod.mk.injEq] at h
    obtain ⟨tx,ht,_,_,hx,outs,_,hr,rfl,rfl⟩ := h
    obtain ⟨hi,hl⟩ := forall_mem_cons.mp ha
    simp only [SignedSession.execute,bind_eq_ok,okOr_eq_ok,ensure_eq_ok,pure_ok_iff,Prod.mk.injEq] at hx
    obtain ⟨out,ho,used,hus,_,hf,rfl,rfl⟩ := hx
    have hs : ∀ key, s.overlay.get key = s'.overlay.get key →
        (s.overlay.apply out.diff).get key = (s'.overlay.apply out.diff).get key := by
      intro key hk
      rw [overlay_apply_get,overlay_apply_get]
      exact landed_congr hk _
    obtain ⟨last',hl',hu'⟩ := @ih _ ⟨s'.overlay.apply out.diff,used⟩ _ hr rfl fun i hm tx ht =>
      ⟨fun key hk => hs key ((hl i hm tx ht).1 key hk),hs _ (hl i hm tx ht).2⟩
    refine ⟨last',?_,hu'⟩
    rw [output_congr (hi tx ht) (declared_of_output ho)] at ho
    simp only [executeAll,ht,okOr,ok_bind,SignedSession.execute,ho,hu,hus,ensure_of hf,pure_eq_ok,hl']

open SamplePayments in
theorem declared_keys_decide_sample : ∃ outs : List (Nat × TransactionOutput), ∃ last last' other,
    other (contractCodeKey (address 8)) = .ok (some [2]) ∧ executed coded = .ok (outs,last) ∧
      executed other = .ok (outs,last') := by
  obtain ⟨outs,last,h⟩ := executed_ok coded_executed
  let other : View := fun key => if key = contractCodeKey (address 8) then .ok (some [2]) else coded key
  have hn : ∀ tx ∈ mixed, ∀ key ∈ runtimeKey :: tx.accessList,
      key ≠ contractCodeKey (address 8) := by decide +kernel
  have hc : ∀ key, key ≠ contractCodeKey (address 8) → coded key = other key :=
    fun _ hk => (if_neg hk).symm
  have hv : ∀ index ∈ range 5, ∀ tx ∈ mixed[index]?,
      Agree tx (SignedSession.new coded).overlay.get (SignedSession.new other).overlay.get := by
    intro index _ tx ht
    have hk := forall_mem_cons.mp (hn tx (mem_of_getElem? ht))
    exact ⟨fun key hm => hc key (hk.2 key hm),hc _ hk.1⟩
  obtain ⟨last',h',-⟩ := @declared_keys_decide _ _ _ _ _ (.new other) _ _ _ h rfl hv
  exact ⟨outs,last,last',other,if_pos rfl,h,h'⟩

end Astrolune.Execution

import Astrolune.Lib.Conflict
import Astrolune.Lib.Run
import Astrolune.Transaction.Payload

namespace Astrolune.Execution
open Lib Codec List

inductive AccessMode where
  | read
  | write
  deriving DecidableEq

structure AccessRequest where
  key : StateKey
  mode : AccessMode
  deriving DecidableEq

structure StateLease where
  requests : List AccessRequest
  deriving DecidableEq

namespace StateLease

def merge (mode : AccessMode) : Option AccessMode → AccessMode
  | none => mode
  | some before => if mode = .write then .write else before

def new (requests : List AccessRequest) : StateLease :=
  let modes : OrderedMap StateKey AccessMode :=
    requests.foldl (fun modes r => modes.insert r.key (merge r.mode (modes.get r.key))) .empty
  ⟨modes.entries.map fun e => ⟨e.1, e.2⟩⟩

def conflictsWith (l other : StateLease) : Bool :=
  l.requests.any fun left => other.requests.any fun right =>
    left.key = right.key ∧ (left.mode = .write ∨ right.mode = .write)

end StateLease

def readOnlyCode (tx : Transaction) : Option StateKey :=
  if tx.lane ≠ .contracts ∨
      ¬((ascii "ALCON002").isPrefixOf tx.payload ∨ (ascii "ALCON003").isPrefixOf tx.payload) ∨
      tx.payload[40]? ≠ some 1 then none
  else
    match ContractPayload.decode tx.payload with
    | .error _ => none
    | .ok payload =>
      match payload.action with
      | .call address _ _ => some (contractCodeKey address)
      | .callTrocto address _ _ => some (troctoContractCodeKey address)
      | .deploy _ | .deployTrocto _ => none

def accessMode (key : StateKey) (readOnly : Option StateKey) : AccessMode :=
  if readOnly = some key then .read else .write

namespace GreedyScheduler

def lease (tx : Transaction) : StateLease :=
  .new (tx.accessList.map fun key => ⟨key, accessMode key (readOnlyCode tx)⟩)

structure History where
  writer : Option Nat
  readers : List Nat

namespace History

/-- What transaction `index` leaves in the history of a key it declares. -/
def record (index : Nat) (mode : AccessMode) (before : Option History) : History :=
  let history := before.getD ⟨none, []⟩
  match mode with
  | .read =>
    if history.readers.getLast? = some index then history
    else { history with readers := history.readers ++ [index] }
  | .write => ⟨some index, []⟩

def previous (mode : AccessMode) : Option History → List Nat
  | none => []
  | some history => history.writer.toList ++ if mode = .write then history.readers else []

end History

structure DependencyScan where
  histories : OrderedMap StateKey History
  senders : OrderedMap Address Nat
  dependencies : List (List Nat)

def DependencyScan.visit (s : DependencyScan) (e : Transaction × Nat) : DependencyScan :=
  let readOnly := readOnlyCode e.1
  let previous := e.1.accessList.flatMap (fun key =>
      History.previous (accessMode key readOnly) (s.histories.get key)) ++
    (s.senders.get e.1.sender).toList
  { histories := e.1.accessList.foldl (fun histories key =>
      histories.insert key (History.record e.2 (accessMode key readOnly) (histories.get key)))
      s.histories
    senders := s.senders.insert e.1.sender e.2
    dependencies := s.dependencies ++ [(previous.insertionSort (· ≤ ·)).dedup] }

def scan (transactions : List Transaction) : DependencyScan :=
  transactions.zipIdx.foldl DependencyScan.visit ⟨.empty, .empty, []⟩

def dependencies (transactions : List Transaction) : List (List Nat) :=
  (scan transactions).dependencies

structure KeyHistory where
  writer : Option Nat
  lastAccess : Nat

namespace KeyHistory

def record (wave : Nat) (mode : AccessMode) : Option KeyHistory → KeyHistory
  | none => { writer := if mode = .write then some wave else none, lastAccess := wave }
  | some history =>
    { writer := if mode = .write then some wave else history.writer
      lastAccess := max history.lastAccess wave }

def predecessor (mode : AccessMode) (history : KeyHistory) : Option Nat :=
  match mode with
  | .read => history.writer
  | .write => some history.lastAccess

end KeyHistory

structure PlanScan where
  keyHistory : OrderedMap StateKey KeyHistory
  lastSenderWave : OrderedMap Address Nat
  waves : List (List Nat)

namespace PlanScan

def candidates (s : PlanScan) (tx : Transaction) : List Nat :=
  tx.accessList.filterMap (fun key =>
      (s.keyHistory.get key).bind (KeyHistory.predecessor (accessMode key (readOnlyCode tx)))) ++
    (s.lastSenderWave.get tx.sender).toList

/-- A wave is opened when it is the next one; an index beyond that would panic. -/
def place (waves : List (List Nat)) (wave index : Nat) : List (List Nat) :=
  (if wave = waves.length then waves ++ [[]] else waves).modify wave (· ++ [index])

def visit (s : PlanScan) (e : Transaction × Nat) : PlanScan :=
  let wave := (s.candidates e.1).max?.elim 0 (· + 1)
  { keyHistory := e.1.accessList.foldl (fun history key =>
      history.insert key (KeyHistory.record wave (accessMode key (readOnlyCode e.1))
        (history.get key))) s.keyHistory
    lastSenderWave := s.lastSenderWave.insert e.1.sender wave
    waves := place s.waves wave e.2 }

end PlanScan

def planScan (transactions : List Transaction) : PlanScan :=
  transactions.zipIdx.foldl PlanScan.visit ⟨.empty, .empty, []⟩

def plan (transactions : List Transaction) : List (List Nat) := (planScan transactions).waves

end GreedyScheduler

open GreedyScheduler

/-- Two transactions may not run at the same time: their leases conflict, or the sender is one. -/
def Conflicting (x y : Transaction) : Prop :=
  (lease x).conflictsWith (lease y) = true ∨ x.sender = y.sender

/-- What transactions contend for: state keys, and the nonces and balances of senders. -/
abbrev Resource := StateKey ⊕ Address

def Declares (mode : AccessMode) (tx : Transaction) : Resource → Prop
  | .inl key => key ∈ tx.accessList ∧ accessMode key (readOnlyCode tx) = mode
  | .inr sender => mode = .write ∧ tx.sender = sender

def accessesOf (transactions : List Transaction) : Accesses Resource where
  reads r i := ∃ tx, transactions[i]? = some tx ∧ Declares .read tx r
  writes r i := ∃ tx, transactions[i]? = some tx ∧ Declares .write tx r

section Conflicts

variable {txs : List Transaction} {tx x y : Transaction} {i j : Nat}

lemma merge_idem (mode : AccessMode) (o : Option AccessMode) :
    StateLease.merge mode (some (StateLease.merge mode o)) = StateLease.merge mode o := by
  cases mode <;> cases o <;> simp [StateLease.merge]

lemma mem_lease {r : AccessRequest} : r ∈ (lease tx).requests ↔
    r.key ∈ tx.accessList ∧ r.mode = accessMode r.key (readOnlyCode tx) := by
  have hg := OrderedMap.get_foldl_update (K := StateKey)
    (f := fun key => StateLease.merge (accessMode key (readOnlyCode tx)))
    (fun _ _ => merge_idem _ _) tx.accessList .empty r.key
  simp only [lease,StateLease.new,foldl_map,mem_map]
  constructor
  · rintro ⟨e,he,rfl⟩
    rw [OrderedMap.get_eq_some_iff.mpr he] at hg
    split at hg
    · next hm => exact ⟨hm,Option.some.inj hg⟩
    · cases hg
  · rintro ⟨hm,hmo⟩
    rw [if_pos hm] at hg
    refine ⟨(r.key,r.mode),OrderedMap.get_eq_some_iff.mp ?_,rfl⟩
    rw [hg,hmo]
    rfl

lemma conflictsWith_iff : (lease x).conflictsWith (lease y) = true ↔
    ∃ key, key ∈ x.accessList ∧ key ∈ y.accessList ∧
      (accessMode key (readOnlyCode x) = .write ∨ accessMode key (readOnlyCode y) = .write) := by
  simp only [StateLease.conflictsWith,any_eq_true,decide_eq_true_eq,mem_lease]
  constructor
  · rintro ⟨left,⟨hl,hlm⟩,right,⟨hr,hrm⟩,hk,hw⟩
    rw [hlm,hrm,← hk] at hw
    exact ⟨left.key,hl,hk ▸ hr,hw⟩
  · rintro ⟨key,hx,hy,hw⟩
    exact ⟨⟨key,accessMode key (readOnlyCode x)⟩,⟨hx,rfl⟩,
      ⟨key,accessMode key (readOnlyCode y)⟩,⟨hy,rfl⟩,rfl,hw⟩

lemma Conflicting.symm (h : Conflicting x y) : Conflicting y x := by
  refine h.imp (fun hl => ?_) Eq.symm
  obtain ⟨key,hx,hy,hw⟩ := conflictsWith_iff.mp hl
  exact conflictsWith_iff.mpr ⟨key,hy,hx,hw.symm⟩

lemma conflict_iff : (accessesOf txs).Conflict i j ↔
    ∃ x y, txs[i]? = some x ∧ txs[j]? = some y ∧ Conflicting x y := by
  have hmo : ∀ key tx, accessMode key (readOnlyCode tx) = .read ∨
      accessMode key (readOnlyCode tx) = .write := fun key tx => by
    cases accessMode key (readOnlyCode tx) <;> simp
  constructor
  · rintro ⟨key | sender,hi,hj,hwr⟩
    · have hd : ∀ {n}, (accessesOf txs).Touches (.inl key) n →
          ∃ tx, txs[n]? = some tx ∧ key ∈ tx.accessList := by
        rintro n (⟨tx,ht,hme,_⟩ | ⟨tx,ht,hme,_⟩) <;> exact ⟨tx,ht,hme⟩
      obtain ⟨x,hx,hxk⟩ := hd hi
      obtain ⟨y,hy,hyk⟩ := hd hj
      refine ⟨x,y,hx,hy,.inl (conflictsWith_iff.mpr ⟨key,hxk,hyk,?_⟩)⟩
      rcases hwr with ⟨tx,ht,_,hw⟩ | ⟨tx,ht,_,hw⟩
      · exact .inl (Option.some.inj (hx.symm.trans ht) ▸ hw)
      · exact .inr (Option.some.inj (hy.symm.trans ht) ▸ hw)
    · have hse : ∀ {n}, (accessesOf txs).Touches (.inr sender) n →
          ∃ tx, txs[n]? = some tx ∧ tx.sender = sender := by
        rintro n (⟨tx,ht,_,hs⟩ | ⟨tx,ht,_,hs⟩) <;> exact ⟨tx,ht,hs⟩
      obtain ⟨x,hx,hxs⟩ := hse hi
      obtain ⟨y,hy,hys⟩ := hse hj
      exact ⟨x,y,hx,hy,.inr (hxs.trans hys.symm)⟩
  · rintro ⟨x,y,hx,hy,hl | hse⟩
    · obtain ⟨key,hxk,hyk,hwr⟩ := conflictsWith_iff.mp hl
      refine ⟨.inl key,?_,?_,hwr.imp (fun hw => ⟨x,hx,hxk,hw⟩) fun hw => ⟨y,hy,hyk,hw⟩⟩
      · exact (hmo key x).imp (fun hm => ⟨x,hx,hxk,hm⟩) fun hm => ⟨x,hx,hxk,hm⟩
      · exact (hmo key y).imp (fun hm => ⟨y,hy,hyk,hm⟩) fun hm => ⟨y,hy,hyk,hm⟩
    · exact ⟨.inr x.sender,.inr ⟨x,hx,rfl,rfl⟩,.inr ⟨y,hy,rfl,hse.symm⟩, .inl ⟨x,hx,rfl,rfl⟩⟩

end Conflicts

end Astrolune.Execution

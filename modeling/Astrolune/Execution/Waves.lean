import Astrolune.Execution.Scheduler

namespace Astrolune.Execution
open Lib Codec GreedyScheduler List

variable {transactions : List Transaction} {tx : Transaction} {n i : Nat} {key : StateKey}

section Accesses

variable (h : transactions[n]? = some tx)
include h

lemma writes_key : (accessesOf transactions).writes (.inl key) n ↔
    key ∈ tx.accessList ∧ accessMode key (readOnlyCode tx) = .write := by
  simp [accessesOf,h,Declares]

lemma reads_key : (accessesOf transactions).reads (.inl key) n ↔
    key ∈ tx.accessList ∧ accessMode key (readOnlyCode tx) = .read := by
  simp [accessesOf,h,Declares]

lemma touches_key : (accessesOf transactions).Touches (.inl key) n ↔ key ∈ tx.accessList := by
  rw [Accesses.Touches,reads_key h,writes_key h]
  cases accessMode key (readOnlyCode tx) <;> simp

lemma writes_sender {sender : Address} : (accessesOf transactions).writes (.inr sender) n ↔
    tx.sender = sender := by
  simp [accessesOf,h,Declares]

omit h in
lemma reads_sender {sender : Address} : ¬(accessesOf transactions).reads (.inr sender) n := by
  simp [accessesOf,Declares]

end Accesses

section Dependencies

namespace GreedyScheduler.History

variable {mode : AccessMode} {o : Option History}

def writerOf (o : Option History) : Option Nat := o.bind (·.writer)

def readersOf (o : Option History) : List Nat := o.elim [] (·.readers)

lemma mem_previous : i ∈ previous mode o ↔
    writerOf o = some i ∨ (mode = .write ∧ i ∈ readersOf o) := by
  cases o with
  | none => simp [previous,writerOf,readersOf]
  | some hist => cases mode <;> simp [previous,writerOf,readersOf]

lemma writerOf_read : writerOf (some (record n .read o)) = writerOf o := by
  cases o with
  | none => rfl
  | some hist =>
    simp only [writerOf,record,Option.getD_some,Option.bind_some]
    split <;> rfl

lemma mem_readersOf_read : i ∈ readersOf (some (record n .read o)) ↔ i ∈ readersOf o ∨ i = n := by
  have hl : ∀ {readers : List Nat}, readers.getLast? = some n → (i ∈ readers ∨ i = n ↔ i ∈ readers) :=
    fun hl => or_iff_left_of_imp fun heq => heq ▸ mem_of_getLast? hl
  cases o with
  | none => simp [readersOf,record]
  | some hist =>
    simp only [readersOf,record,Option.getD_some,Option.elim_some]
    split
    · next hs => exact (hl hs).symm
    · simp

lemma record_idem (mode : AccessMode) (o : Option History) :
    record n mode (some (record n mode o)) = record n mode o := by
  cases mode with
  | write => rfl
  | read =>
    simp only [record,Option.getD_some]
    split
    · rfl
    · rw [if_pos (by simp)]

end GreedyScheduler.History

open GreedyScheduler.History

/-- What the scan knows after `n` transactions. -/
structure Scanned (transactions : List Transaction) (n : Nat) (s : DependencyScan) : Prop where
  writer : ∀ key i, writerOf (s.histories.get key) = some i ↔
    LastBefore ((accessesOf transactions).writes (.inl key)) n i
  reader : ∀ key i, i ∈ readersOf (s.histories.get key) ↔
    (accessesOf transactions).reads (.inl key) i ∧ i < n ∧
      ∀ m, i < m → m < n → ¬(accessesOf transactions).writes (.inl key) m
  sender : ∀ sender i, s.senders.get sender = some i ↔
    LastBefore ((accessesOf transactions).writes (.inr sender)) n i
  length : s.dependencies.length = n
  edge : ∀ j < n, ∀ i, (∃ l, s.dependencies[j]? = some l ∧ i ∈ l) ↔
    (accessesOf transactions).Edge j i

namespace Scanned

variable {s : DependencyScan}

lemma zero : Scanned transactions 0 ⟨.empty,.empty,[]⟩ where
  writer _ i := by simp [writerOf,LastBefore]
  reader _ i := by simp [readersOf]
  sender _ i := by simp [LastBefore]
  length := rfl
  edge j hj := absurd hj (Nat.not_lt_zero j)

/-- The list that `visit` appends holds the edges of the transaction. -/
lemma mem_previous_iff (h : Scanned transactions n s) (htx : transactions[n]? = some tx) :
    i ∈ tx.accessList.flatMap (fun key => History.previous (accessMode key (readOnlyCode tx))
        (s.histories.get key)) ++ (s.senders.get tx.sender).toList ↔
      (accessesOf transactions).Edge n i := by
  simp only [mem_append,mem_flatMap,History.mem_previous,h.writer,h.reader, Option.mem_toList,h.sender]
  constructor
  · rintro (⟨key,hk,hl | ⟨hm,hr,hlt,hn⟩⟩ | hl)
    · exact ⟨.inl key,.inl ⟨(touches_key htx).mpr hk,hl⟩⟩
    · exact ⟨.inl key,.inr ⟨(writes_key htx).mpr ⟨hk,hm⟩,hr,hlt,hn⟩⟩
    · exact ⟨.inr tx.sender,.inl ⟨.inr ((writes_sender htx).mpr rfl),hl⟩⟩
  · rintro ⟨key | sender,⟨ht,hl⟩ | ⟨hw,hr,hlt,hn⟩⟩
    · exact .inl ⟨key,(touches_key htx).mp ht,.inl hl⟩
    · obtain ⟨hk,hm⟩ := (writes_key htx).mp hw
      exact .inl ⟨key,hk,.inr ⟨hm,hr,hlt,hn⟩⟩
    · have hs : tx.sender = sender := (writes_sender htx).mp (ht.resolve_left reads_sender)
      exact .inr (hs ▸ hl)
    · exact absurd hr reads_sender

lemma histories_visit : (s.visit (tx,n)).histories.get key = if key ∈ tx.accessList then
      some (History.record n (accessMode key (readOnlyCode tx)) (s.histories.get key))
    else s.histories.get key := by
  simp only [DependencyScan.visit]
  convert OrderedMap.get_foldl_update
    (f := fun key => History.record n (accessMode key (readOnlyCode tx)))
    (fun _ _ => History.record_idem _ _) tx.accessList s.histories key

lemma visit (h : Scanned transactions n s) (ht : transactions[n]? = some tx) :
    Scanned transactions (n + 1) (s.visit (tx,n)) where
  writer key i := by
    rw [histories_visit,lastBefore_succ,writes_key ht]
    by_cases hk : key ∈ tx.accessList
    · rw [if_pos hk]
      cases hmo : accessMode key (readOnlyCode tx) with
      | read => simp [writerOf_read,h.writer,hk]
      | write => simp [writerOf,History.record,hk,eq_comm]
    · simp [hk,h.writer]
  reader key i := by
    rw [histories_visit]
    have hb : ∀ {P : Nat → Prop}, (∀ m, i < m → m < n + 1 → ¬P m) ↔
        (∀ m, i < m → m < n → ¬P m) ∧ (i < n → ¬P n) := by
      intro P
      constructor
      · exact fun ha => ⟨fun m hi hmn => ha m hi (Nat.lt_succ_of_lt hmn),
          fun hin => ha n hin (Nat.lt_succ_self n)⟩
      · rintro ⟨ha,hn⟩ m hi hm
        rcases Nat.lt_succ_iff_lt_or_eq.mp hm with hm | rfl
        · exact ha m hi hm
        · exact hn hi
    rw [hb,writes_key ht]
    by_cases hk : key ∈ tx.accessList
    · rw [if_pos hk]
      cases hmo : accessMode key (readOnlyCode tx) with
      | read =>
        rw [mem_readersOf_read,h.reader]
        constructor
        · rintro (⟨hr,hlt,hno⟩ | rfl)
          · exact ⟨hr,Nat.lt_succ_of_lt hlt,hno,by simp⟩
          · exact ⟨(reads_key ht).mpr ⟨hk,hmo⟩,Nat.lt_succ_self i,
              fun m hi hmi => absurd hi hmi.asymm,by simp⟩
        · rintro ⟨hr,hlt,hno,_⟩
          rcases Nat.lt_succ_iff_lt_or_eq.mp hlt with hlt | rfl
          · exact .inl ⟨hr,hlt,hno⟩
          · exact .inr rfl
      | write =>
        simp only [readersOf,History.record,Option.elim_some,not_mem_nil,false_iff]
        rintro ⟨hr,hlt,_,hl⟩
        rcases Nat.lt_succ_iff_lt_or_eq.mp hlt with hlt | rfl
        · exact hl hlt ⟨hk,trivial⟩
        · rw [reads_key ht,hmo] at hr
          exact absurd hr.2 (by simp)
    · rw [if_neg hk,h.reader]
      constructor
      · rintro ⟨hr,hlt,hno⟩
        exact ⟨hr,Nat.lt_succ_of_lt hlt,hno,fun _ hw => hk hw.1⟩
      · rintro ⟨hr,hlt,hno,_⟩
        rcases Nat.lt_succ_iff_lt_or_eq.mp hlt with hlt | rfl
        · exact ⟨hr,hlt,hno⟩
        · exact absurd ((reads_key ht).mp hr).1 hk
  sender sender i := by
    simp only [DependencyScan.visit,OrderedMap.get_insert]
    rw [lastBefore_succ,writes_sender ht]
    by_cases hs : sender = tx.sender
    · simp [hs,eq_comm]
    · simp [hs,Ne.symm hs,h.sender]
  length := by simp [DependencyScan.visit,h.length]
  edge j hj i := by
    rcases Nat.lt_succ_iff_lt_or_eq.mp hj with hj | rfl
    · rw [← h.edge j hj]
      simp only [DependencyScan.visit]
      rw [getElem?_append_left (h.length.symm ▸ hj)]
    · rw [← h.mem_previous_iff ht]
      simp only [DependencyScan.visit]
      rw [getElem?_append_right (h.length.le),h.length,Nat.sub_self]
      simp

end Scanned

lemma scanned (transactions : List Transaction) :
    Scanned transactions transactions.length (scan transactions) :=
  @foldl_zipIdx_invariant _ _ _ (Scanned transactions) _ _ .zero fun _ _ _ ht h => h.visit ht

end Dependencies

section Plan

variable {waves : List (List Nat)} {index : Nat}

lemma mem_place {wave v : Nat} (hl : wave ≤ waves.length) :
    (∃ l, (PlanScan.place waves wave index)[v]? = some l ∧ i ∈ l) ↔
      (∃ l, waves[v]? = some l ∧ i ∈ l) ∨ (v = wave ∧ i = index) := by
  have ho : ∀ v : Nat,
      (∃ l, (if wave = waves.length then waves ++ [[]] else waves)[v]? = some l ∧ i ∈ l) ↔
        ∃ l, waves[v]? = some l ∧ i ∈ l := by
    intro v
    split
    · rw [getElem?_append]
      split
      · rfl
      · next hg =>
        have hno : waves[v]? = none := getElem?_eq_none (not_lt.mp hg)
        rw [hno]
        cases hv : v - waves.length with
        | zero => simp
        | succ k => simp
    · rfl
  have hb : wave < (if wave = waves.length then waves ++ [[]] else waves).length := by
    split
    · next heq => simp [heq]
    · next hn => exact lt_of_le_of_ne hl hn
  rw [PlanScan.place,getElem?_modify,← ho v]
  by_cases hv : wave = v
  · subst hv
    rw [getElem?_eq_getElem hb]
    simp
  · simp [hv,Ne.symm hv]

lemma flatten_place {wave : Nat} (hl : wave ≤ waves.length) :
    (PlanScan.place waves wave index).flatten.Perm (index :: waves.flatten) := by
  have ho : (if wave = waves.length then waves ++ [[]] else waves).flatten = waves.flatten := by
    split <;> simp
  have hb : wave < (if wave = waves.length then waves ++ [[]] else waves).length := by
    split
    · next heq => simp [heq]
    · next hn => exact lt_of_le_of_ne hl hn
  obtain ⟨pre,l,after,hs,_,hm⟩ := exists_of_modify (· ++ [index]) hb
  rw [PlanScan.place,hm,← ho,hs]
  simp only [flatten_append,flatten_cons,append_assoc,singleton_append]
  rw [← append_assoc,← append_assoc pre.flatten l]
  exact perm_middle

/-- What the plan knows after `n` transactions. -/
structure Planned (transactions : List Transaction) (n : Nat) (s : PlanScan) : Prop where
  placed : ∀ v i, (∃ l, s.waves[v]? = some l ∧ i ∈ l) ↔ i < n ∧ (accessesOf transactions).level i = v
  once : s.waves.flatten.Perm (range n)
  untouched : ∀ key, s.keyHistory.get key = none →
    ∀ i < n, ¬(accessesOf transactions).Touches (.inl key) i
  writer : ∀ key history, s.keyHistory.get key = some history → ∀ v, history.writer = some v ↔
    ∃ i, LastBefore ((accessesOf transactions).writes (.inl key)) n i ∧
      (accessesOf transactions).level i = v
  access : ∀ key history, s.keyHistory.get key = some history →
    (∃ i < n, (accessesOf transactions).Touches (.inl key) i ∧
      (accessesOf transactions).level i = history.lastAccess) ∧
    ∀ i < n, (accessesOf transactions).Touches (.inl key) i →
      (accessesOf transactions).level i ≤ history.lastAccess
  sender : ∀ sender v, s.lastSenderWave.get sender = some v ↔
    ∃ i, LastBefore ((accessesOf transactions).writes (.inr sender)) n i ∧
      (accessesOf transactions).level i = v

namespace Planned

variable {s : PlanScan}

lemma zero : Planned transactions 0 ⟨.empty,.empty,[]⟩ where
  placed := by simp
  once := by simp
  untouched := by simp
  writer := by simp
  access := by simp
  sender := by simp [LastBefore]

lemma candidate_sound (h : Planned transactions n s) (htx : transactions[n]? = some tx) :
    ∀ v ∈ s.candidates tx, ∃ i < n, (accessesOf transactions).Conflict i n ∧
      (accessesOf transactions).level i = v := by
  intro v hv
  rcases mem_append.mp hv with hv | hv
  · obtain ⟨key,hk,hv⟩ := mem_filterMap.mp hv
    obtain ⟨hist,hh,hv⟩ := Option.bind_eq_some_iff.mp hv
    have ht := (touches_key htx).mpr hk
    cases hm : accessMode key (readOnlyCode tx) with
    | read =>
      rw [hm] at hv
      obtain ⟨i,hl,hle⟩ := (h.writer key hist hh v).mp hv
      exact ⟨i,hl.1,⟨.inl key,.inr hl.2.1,ht,.inl hl.2.1⟩,hle⟩
    | write =>
      rw [hm] at hv
      obtain ⟨i,hlt,hi,hle⟩ := (h.access key hist hh).1
      exact ⟨i,hlt,⟨.inl key,hi,ht,.inr ((writes_key htx).mpr ⟨hk,hm⟩)⟩, hle.trans (Option.some.inj hv)⟩
  · obtain ⟨i,hl,hle⟩ := (h.sender tx.sender v).mp (Option.mem_toList.mp hv)
    exact ⟨i,hl.1,⟨.inr tx.sender,.inr hl.2.1,.inr ((writes_sender htx).mpr rfl), .inl hl.2.1⟩,hle⟩

lemma candidate_bound (h : Planned transactions n s) (ht : transactions[n]? = some tx) :
    ∀ i < n, (accessesOf transactions).Conflict i n →
      ∃ v ∈ s.candidates tx, (accessesOf transactions).level i ≤ v := by
  rintro i hlt ⟨key | sender,hi,hn,hwr⟩
  · have hk := (touches_key ht).mp hn
    cases hh : s.keyHistory.get key with
    | none => exact absurd hi (h.untouched key hh i hlt)
    | some hist =>
      have hc : ∀ v, KeyHistory.predecessor (accessMode key (readOnlyCode tx)) hist = some v →
          v ∈ s.candidates tx := fun v hv =>
        mem_append_left _ (mem_filterMap.mpr ⟨key,hk,by rw [hh]; exact hv⟩)
      cases hm : accessMode key (readOnlyCode tx) with
      | read =>
        rw [hm] at hc
        have hwro : (accessesOf transactions).writes (.inl key) i := by
          refine hwr.resolve_right fun hw => ?_
          rw [writes_key ht,hm] at hw
          exact absurd hw.2 (by simp)
        obtain ⟨last,_,hl⟩ := exists_lastBefore hlt hwro
        exact ⟨_,hc _ ((h.writer key hist hh _).mpr ⟨last,hl,rfl⟩),
          Accesses.level_le_lastWriter hl hlt hwro⟩
      | write =>
        rw [hm] at hc
        exact ⟨hist.lastAccess,hc _ rfl,(h.access key hist hh).2 i hlt hi⟩
  · have hs : tx.sender = sender := (writes_sender ht).mp (hn.resolve_left reads_sender)
    have hwro := hi.resolve_left reads_sender
    obtain ⟨last,_,hl⟩ := exists_lastBefore hlt hwro
    refine ⟨_,mem_append_right _ (Option.mem_toList.mpr ((h.sender tx.sender _).mpr
      ⟨last,hs ▸ hl,rfl⟩)),Accesses.level_le_lastWriter hl hlt hwro⟩

lemma wave_eq (h : Planned transactions n s) (ht : transactions[n]? = some tx) :
    (s.candidates tx).max?.elim 0 (· + 1) = (accessesOf transactions).level n :=
  Accesses.level_of_candidates (h.candidate_sound ht) (h.candidate_bound ht)

lemma level_le_length (h : Planned transactions n s) :
    (accessesOf transactions).level n ≤ s.waves.length := by
  refine Accesses.level_le fun i hi _ => ?_
  obtain ⟨l,hl,_⟩ := (h.placed _ i).mpr ⟨hi,rfl⟩
  exact (List.getElem?_eq_some_iff.mp hl).1

lemma record_idem (wave : Nat) (mode : AccessMode) (o : Option KeyHistory) :
    KeyHistory.record wave mode (some (KeyHistory.record wave mode o)) =
      KeyHistory.record wave mode o := by
  cases mode <;> cases o <;> simp [KeyHistory.record]

lemma keyHistory_visit (h : Planned transactions n s) (ht : transactions[n]? = some tx) :
    (s.visit (tx,n)).keyHistory.get key = if key ∈ tx.accessList then
        some (KeyHistory.record ((accessesOf transactions).level n)
          (accessMode key (readOnlyCode tx)) (s.keyHistory.get key))
      else s.keyHistory.get key := by
  simp only [PlanScan.visit,h.wave_eq ht]
  convert OrderedMap.get_foldl_update (f := fun key =>
    KeyHistory.record ((accessesOf transactions).level n) (accessMode key (readOnlyCode tx)))
    (fun _ _ => record_idem _ _ _) tx.accessList s.keyHistory key

lemma visit (h : Planned transactions n s) (htx : transactions[n]? = some tx) :
    Planned transactions (n + 1) (s.visit (tx,n)) where
  placed v i := by
    simp only [PlanScan.visit,h.wave_eq htx]
    rw [mem_place h.level_le_length,h.placed]
    constructor
    · rintro (⟨hlt,hlev⟩ | ⟨rfl,rfl⟩)
      · exact ⟨Nat.lt_succ_of_lt hlt,hlev⟩
      · exact ⟨Nat.lt_succ_self i,rfl⟩
    · rintro ⟨hlt,hlev⟩
      rcases Nat.lt_succ_iff_lt_or_eq.mp hlt with hlt | rfl
      · exact .inl ⟨hlt,hlev⟩
      · exact .inr ⟨hlev.symm,rfl⟩
  once := by
    simp only [PlanScan.visit,h.wave_eq htx]
    refine (flatten_place h.level_le_length).trans ?_
    rw [range_succ]
    exact (h.once.cons n).trans (perm_append_singleton n _).symm
  untouched key hn i hi := by
    rw [h.keyHistory_visit htx] at hn
    split at hn
    · cases hn
    · next hke =>
      rcases Nat.lt_succ_iff_lt_or_eq.mp hi with hi | rfl
      · exact h.untouched key hn i hi
      · rwa [touches_key htx]
  writer key history hh v := by
    rw [h.keyHistory_visit htx] at hh
    simp only [lastBefore_succ,writes_key htx]
    by_cases hke : key ∈ tx.accessList
    · rw [if_pos hke,Option.some.injEq] at hh
      subst hh
      cases hm : accessMode key (readOnlyCode tx) with
      | write => cases s.keyHistory.get key <;> simp [KeyHistory.record,hke]
      | read =>
        cases hb : s.keyHistory.get key with
        | none =>
          have hn : ∀ i, ¬LastBefore ((accessesOf transactions).writes (.inl key)) n i :=
            fun i hl => h.untouched key hb i hl.1 (.inr hl.2.1)
          simp [KeyHistory.record,hn]
        | some pre => simp [KeyHistory.record,h.writer key pre hb]
    · rw [if_neg hke] at hh
      simp [hke,h.writer key history hh]
  access key history hh := by
    rw [h.keyHistory_visit htx] at hh
    by_cases hke : key ∈ tx.accessList
    · rw [if_pos hke,Option.some.injEq] at hh
      subst hh
      have hto := (touches_key htx).mpr hke
      cases hb : s.keyHistory.get key with
      | none =>
        refine ⟨⟨n,Nat.lt_succ_self n,hto,rfl⟩,fun i hi ht => ?_⟩
        rcases Nat.lt_succ_iff_lt_or_eq.mp hi with hi | rfl
        · exact absurd ht (h.untouched key hb i hi)
        · exact le_rfl
      | some pre =>
        obtain ⟨⟨i,hi,ht,hlev⟩,ha⟩ := h.access key pre hb
        refine ⟨?_,fun k hk htk => ?_⟩
        · rcases le_total pre.lastAccess ((accessesOf transactions).level n) with hle | hle
          · exact ⟨n,Nat.lt_succ_self n,hto,(max_eq_right hle).symm⟩
          · exact ⟨i,Nat.lt_succ_of_lt hi,ht,hlev.trans (max_eq_left hle).symm⟩
        · rcases Nat.lt_succ_iff_lt_or_eq.mp hk with hk | rfl
          · exact (ha k hk htk).trans (le_max_left _ _)
          · exact le_max_right _ _
    · rw [if_neg hke] at hh
      obtain ⟨⟨i,hi,ht,hlev⟩,ha⟩ := h.access key history hh
      refine ⟨⟨i,Nat.lt_succ_of_lt hi,ht,hlev⟩,fun k hk htk => ?_⟩
      rcases Nat.lt_succ_iff_lt_or_eq.mp hk with hk | rfl
      · exact ha k hk htk
      · exact absurd ((touches_key htx).mp htk) hke
  sender sender v := by
    simp only [PlanScan.visit,h.wave_eq htx,OrderedMap.get_insert,lastBefore_succ, writes_sender htx]
    by_cases hs : sender = tx.sender
    · simp [hs]
    · simp [hs,Ne.symm hs,h.sender]

end Planned

lemma planned (transactions : List Transaction) :
    Planned transactions transactions.length (planScan transactions) :=
  @foldl_zipIdx_invariant _ _ _ (Planned transactions) _ _ .zero fun _ _ _ ht h => h.visit ht

end Plan

def ConflictAt (transactions : List Transaction) (i j : Nat) : Prop :=
  ∃ x y, transactions[i]? = some x ∧ transactions[j]? = some y ∧ Conflicting x y

def InWave (transactions : List Transaction) (v i : Nat) : Prop :=
  ∃ wave, (plan transactions)[v]? = some wave ∧ i ∈ wave

def DependsOn (transactions : List Transaction) (j i : Nat) : Prop :=
  ∃ previous, (dependencies transactions)[j]? = some previous ∧ i ∈ previous

lemma inWave_iff {v : Nat} : InWave transactions v i ↔
    i < transactions.length ∧ (accessesOf transactions).level i = v :=
  (planned transactions).placed v i

lemma dependsOn_iff {j : Nat} :
    DependsOn transactions j i ↔ (accessesOf transactions).Edge j i := by
  constructor
  · rintro ⟨prev,hg,hi⟩
    have hl : j < transactions.length :=
      (scanned transactions).length ▸ (List.getElem?_eq_some_iff.mp hg).1
    exact ((scanned transactions).edge j hl i).mp ⟨prev,hg,hi⟩
  · intro he
    obtain ⟨_,y,_,hy,_⟩ := conflict_iff.mp he.conflict
    exact ((scanned transactions).edge j (List.getElem?_eq_some_iff.mp hy).1 i).mpr he

/-- Waves and dependencies say the same as the conflicts between transactions: a wave holds no
conflict and comes right after the last wave in conflict with it, and the edges are conflicts that
order all the others. -/
theorem scheduling_exact (transactions : List Transaction) :
    (plan transactions).flatten.Perm (range transactions.length) ∧
    (∀ v i j, InWave transactions v i → InWave transactions v j → i ≠ j →
      ¬ConflictAt transactions i j) ∧
    (∀ v j, InWave transactions v j →
      (∀ i < j, ConflictAt transactions i j → ∃ u < v, InWave transactions u i) ∧
      ((v = 0 ∧ ∀ i < j, ¬ConflictAt transactions i j) ∨
        ∃ i < j, ConflictAt transactions i j ∧ ∃ u, InWave transactions u i ∧ v = u + 1)) ∧
    (∀ i j, i < j → ConflictAt transactions i j →
      Relation.TransGen (DependsOn transactions) j i) ∧
    ∀ j i, DependsOn transactions j i → i < j ∧ ConflictAt transactions i j := by
  refine ⟨(planned transactions).once,fun v i j hi hj hn hc => ?_,fun v j hj => ?_,
    fun i j hlt hc => ?_,fun j i he => ?_⟩
  · obtain ⟨_,hi⟩ := inWave_iff.mp hi
    obtain ⟨_,hj⟩ := inWave_iff.mp hj
    have hs : (accessesOf transactions).level i = (accessesOf transactions).level j :=
      hi.trans hj.symm
    rcases Nat.lt_or_gt_of_ne hn with hlt | hlt
    · exact (Accesses.level_lt hlt (conflict_iff.mpr hc)).ne hs
    · obtain ⟨x,y,hx,hy,hxy⟩ := hc
      exact (Accesses.level_lt hlt (conflict_iff.mpr ⟨y,x,hy,hx,hxy.symm⟩)).ne hs.symm
  · obtain ⟨hb,rfl⟩ := inWave_iff.mp hj
    refine ⟨fun i hi hc => ⟨_,Accesses.level_lt hi (conflict_iff.mpr hc),
      inWave_iff.mpr ⟨hi.trans hb,rfl⟩⟩,?_⟩
    obtain ⟨hz,hno⟩ | ⟨i,hi,hc,hl⟩ := @Accesses.level_cases _ (accessesOf transactions) j
    · exact .inl ⟨hz,fun i hi hc => hno i hi (conflict_iff.mpr hc)⟩
    · exact .inr ⟨i,hi,conflict_iff.mp hc,_,inWave_iff.mpr ⟨hi.trans hb,rfl⟩,hl⟩
  · have hr := (conflict_iff.mpr hc).reaches hlt
    exact hr.lift id fun later earlier => dependsOn_iff.mpr
  · have he := dependsOn_iff.mp he
    exact ⟨he.lt,conflict_iff.mp he.conflict⟩

namespace ThreePayments

def transaction (sender : UInt8) (keys : List StateKey) : Transaction where
  version := 1
  expiresAt := 9
  lane := .payments
  resourcePrices := ⟨1, 1, 1, 1⟩
  chainId := 7
  sender := Fixed.fill 32 sender
  nonce := 0
  accessList := keys
  resourceLimit := ⟨1, 1, 1, 1⟩
  payload := []
  signature := Fixed.fill 64 0

def chained : List Transaction :=
  [transaction 1 [[1]], transaction 2 [[1], [2]], transaction 3 [[2]]]

end ThreePayments

open ThreePayments in
theorem scheduling_exact_chained : plan chained = [[0], [1], [2]] ∧
    Relation.TransGen (DependsOn chained) 1 0 ∧ ¬ConflictAt chained 0 2 := by
  have hc : ConflictAt chained 0 1 :=
    ⟨_,_,rfl,rfl,.inl (by decide +kernel)⟩
  refine ⟨by decide +kernel,(scheduling_exact chained).2.2.2.1 0 1 (by decide) hc,?_⟩
  rintro ⟨x,y,hx,hy,hxy⟩
  cases hx
  cases hy
  exact absurd hxy (by unfold Conflicting; decide +kernel)

end Astrolune.Execution

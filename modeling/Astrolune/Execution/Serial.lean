import Astrolune.Execution.Ready

namespace Astrolune.Execution
open Lib Codec Crypto State GreedyScheduler List

section Overlays

variable {vs values' : OrderedMap StateKey (Option Bytes)} {key : StateKey}

def written : StateChange → Option Bytes
  | .put _ value => some value
  | .delete _ => none

lemma get_applyChange (change : StateChange) : (Overlay.applyChange vs change).get key =
    if key = change.key then some (written change) else vs.get key := by
  cases change <;> simp only [Overlay.applyChange,OrderedMap.get_insert,StateChange.key,written] <;>
    congr

lemma get_applyDiff_congr (diff : StateDiff) (h : vs.get key = values'.get key) :
    (Overlay.applyDiff vs diff).get key = (Overlay.applyDiff values' diff).get key := by
  obtain ⟨cs⟩ := diff
  induction cs generalizing vs values' with
  | nil => exact h
  | cons change rest ih =>
    refine ih ?_
    rw [get_applyChange,get_applyChange,h]

lemma get_applyDiff_other {diff : StateDiff} (h : ∀ change ∈ diff.changes, change.key ≠ key) :
    (Overlay.applyDiff vs diff).get key = vs.get key := by
  obtain ⟨cs⟩ := diff
  induction cs generalizing vs with
  | nil => rfl
  | cons change rest ih =>
    obtain ⟨hf,hr⟩ := forall_mem_cons.mp h
    have hs := @ih (Overlay.applyChange vs change) hr
    rw [get_applyChange,if_neg (Ne.symm hf)] at hs
    exact hs

lemma get_foldl_applyChange (cs : List StateChange)
    (vs : OrderedMap StateKey (Option Bytes)) (key : StateKey) :
    (cs.foldl Overlay.applyChange vs).get key =
      ((cs.foldl Overlay.applyChange .empty).get key).or (vs.get key) := by
  induction cs using reverseRecOn with
  | nil => simp
  | append_singleton rest change ih =>
    rw [foldl_append,foldl_append]
    simp only [foldl_cons,foldl_nil,get_applyChange,ih]
    split <;> rfl

lemma get_applyOutputs_over (outputs : List (Nat × TransactionOutput))
    (vs : OrderedMap StateKey (Option Bytes)) (key : StateKey) :
    (applyOutputs vs outputs).get key =
      ((applyOutputs .empty outputs).get key).or (vs.get key) := by
  have hf : ∀ vs, applyOutputs vs outputs =
      (outputs.flatMap fun e => e.2.diff.changes).foldl Overlay.applyChange vs :=
    fun vs => foldl_flatMap.symm
  rw [hf,hf]
  exact get_foldl_applyChange _ _ _

lemma get_applyOutputs_filter {outputs : List (Nat × TransactionOutput)} {p : Nat → Bool}
    (h : vs.get key = values'.get key)
    (ho : ∀ e ∈ outputs, p e.1 = false → ∀ change ∈ e.2.diff.changes, change.key ≠ key) :
    (applyOutputs vs outputs).get key =
      (applyOutputs values' (outputs.filter fun e => p e.1)).get key := by
  induction outputs generalizing vs values' with
  | nil => exact h
  | cons e rest ih =>
    obtain ⟨hf,hr⟩ := forall_mem_cons.mp ho
    cases hp : p e.1 with
    | true =>
      rw [filter_cons_of_pos (by simpa using hp)]
      exact ih (get_applyDiff_congr _ h) hr
    | false =>
      rw [filter_cons_of_neg (by simp [hp])]
      exact ih ((get_applyDiff_other (hf hp)).trans h) hr

lemma get_foldl_insert {l : List (StateKey × Option Bytes)}
    (h : ∀ e ∈ l, vs.get e.1 = some e.2) (m : OrderedMap StateKey (Option Bytes)) :
    (l.foldl (fun frozen e => frozen.insert e.1 e.2) m).get key =
      if key ∈ l.map Prod.fst then vs.get key else m.get key := by
  induction l generalizing m with
  | nil => rfl
  | cons e rest ih =>
    obtain ⟨hf,hr⟩ := forall_mem_cons.mp h
    rw [foldl_cons,ih hr,OrderedMap.get_insert,map_cons]
    by_cases hm : key ∈ rest.map Prod.fst
    · rw [if_pos hm,if_pos (mem_cons_of_mem _ hm)]
    · rw [if_neg hm]
      by_cases heq : key = e.1
      · rw [if_pos heq,if_pos (heq ▸ mem_cons_self),heq,hf]
      · rw [if_neg heq,if_neg (fun hi => (mem_cons.mp hi).elim heq hm)]

lemma get_freeze (vs : OrderedMap StateKey (Option Bytes)) (keys : List StateKey)
    (key : StateKey) : (freeze vs keys).get key = if key ∈ keys then vs.get key else none := by
  have hen : ∀ e ∈ keys.filterMap fun key => (vs.get key).map (key,·),
      vs.get e.1 = some e.2 := by
    intro e he
    obtain ⟨k,_,hk⟩ := mem_filterMap.mp he
    obtain ⟨v,hv,rfl⟩ := Option.map_eq_some_iff.mp hk
    exact hv
  rw [freeze,get_foldl_insert hen,OrderedMap.get_empty]
  by_cases hm : key ∈ keys
  · rw [if_pos hm]
    cases hv : vs.get key with
    | none => exact ite_self _
    | some v =>
      rw [if_pos]
      exact mem_map.mpr ⟨(key,v),mem_filterMap.mpr ⟨key,hm,by rw [hv]; rfl⟩,rfl⟩
  · rw [if_neg hm,if_neg]
    intro hi
    obtain ⟨e,he,rfl⟩ := mem_map.mp hi
    obtain ⟨k,hk,hs⟩ := mem_filterMap.mp he
    obtain ⟨v,_,rfl⟩ := Option.map_eq_some_iff.mp hs
    exact hm hk

end Overlays

section Sessions

variable {b : Backend} {rules : Rules} {transactions : List Transaction}
  {faults : Nat → NativeFaults} {s last : SignedSession} {indexes : List Nat}
  {outputs : List (Nat × TransactionOutput)} {e : Nat × TransactionOutput}

lemma SignedSession.execute_eq_ok {s' : SignedSession} {f : NativeFaults} {tx : Transaction}
    {out : TransactionOutput} (h : s.execute b rules f tx = .ok (out,s')) :
    SignedSession.output b rules s.overlay.get f tx = .ok out ∧
      s'.overlay = s.overlay.apply out.diff := by
  simp only [SignedSession.execute,bind_eq_ok,pure_ok_iff,Prod.mk.injEq] at h
  obtain ⟨o,ho,used,_,_,_,rfl,rfl⟩ := h
  exact ⟨ho,rfl⟩

/-- What a session leaves: an output for each transaction, all applied in order. -/
lemma executeAll_spec (h : executeAll b rules transactions faults s indexes = .ok (outputs,last)) :
    outputs.map Prod.fst = indexes ∧
      last.overlay = ⟨s.overlay.parent,applyOutputs s.overlay.values outputs⟩ := by
  induction indexes generalizing s outputs with
  | nil =>
    cases h
    exact ⟨rfl,rfl⟩
  | cons index rest ih =>
    simp only [executeAll,bind_eq_ok,pure_ok_iff,Prod.mk.injEq] at h
    obtain ⟨tx,_,⟨out,next⟩,he,⟨outs,_⟩,hr,rfl,rfl⟩ := h
    obtain ⟨hi,ho⟩ := ih hr
    obtain ⟨-,hn⟩ := SignedSession.execute_eq_ok he
    rw [hn] at ho
    exact ⟨by rw [map_cons,hi],ho⟩

lemma executed_of_mem (h : executeAll b rules transactions faults s indexes = .ok (outputs,last))
    (he : e ∈ outputs) :
    ∃ pre after outs mid tx, indexes = pre ++ e.1 :: after ∧
      executeAll b rules transactions faults s pre = .ok (outs,mid) ∧
      transactions[e.1]? = some tx ∧
      SignedSession.output b rules mid.overlay.get (faults e.1) tx = .ok e.2 := by
  induction indexes generalizing s outputs with
  | nil =>
    cases h
    cases he
  | cons index rest ih =>
    simp only [executeAll,bind_eq_ok,okOr_eq_ok,pure_ok_iff,Prod.mk.injEq] at h
    obtain ⟨tx,ht,⟨out,next⟩,hex,⟨outs,_⟩,hr,rfl,rfl⟩ := h
    rcases mem_cons.mp he with rfl | he
    · exact ⟨[],rest,[],s,tx,rfl,rfl,ht,(SignedSession.execute_eq_ok hex).1⟩
    · obtain ⟨pre,after,outs',mid,tx',rfl,hb,ht',ho⟩ := ih hr he
      refine ⟨index :: pre,after,(index,out) :: outs',mid,tx',rfl,?_,ht',ho⟩
      simp only [executeAll,ht,okOr,ok_bind,hex,hb,pure_eq_ok]

def Produced (b : Backend) (rules : Rules) (transactions : List Transaction)
    (e : Nat × TransactionOutput) : Prop :=
  ∃ view f tx, transactions[e.1]? = some tx ∧ SignedSession.output b rules view f tx = .ok e.2

lemma produced_of_executeAll (h : executeAll b rules transactions faults s indexes = .ok (outputs,last)) :
    ∀ e ∈ outputs, Produced b rules transactions e := by
  intro e he
  obtain ⟨_,_,_,mid,tx,_,_,ht,ho⟩ := executed_of_mem h he
  exact ⟨mid.overlay.get,faults e.1,tx,ht,ho⟩

lemma Produced.writes (h : Produced b rules transactions e) {change : StateChange}
    (hc : change ∈ e.2.diff.changes) :
    (accessesOf transactions).writes (.inl change.key) e.1 := by
  obtain ⟨view,f,tx,ht,ho⟩ := h
  obtain ⟨hm,hd⟩ := writes_of_output ho hc
  exact (writes_key ht).mpr ⟨hd,hm.mode⟩

lemma Produced.ne_runtimeKey (h : Produced b rules transactions e) :
    ∀ change ∈ e.2.diff.changes, change.key ≠ runtimeKey := by
  obtain ⟨view,f,tx,ht,ho⟩ := h
  exact fun change hc => (writes_of_output ho hc).1.ne_runtimeKey

lemma get_runtimeKey (h : ∀ e ∈ outputs, Produced b rules transactions e)
    (vs : OrderedMap StateKey (Option Bytes)) :
    (applyOutputs vs outputs).get runtimeKey = vs.get runtimeKey := by
  have hf := @get_applyOutputs_filter vs vs runtimeKey outputs (fun _ => false) rfl
    fun e he _ => (h e he).ne_runtimeKey
  rw [hf,filter_eq_nil_iff.mpr (by simp)]
  rfl

end Sessions

section Histories

variable (b : Backend) (rules : Rules) (parent : View) (transactions : List Transaction)
  (faults : Nat → NativeFaults)

def submittedIndexes (history : List Event) : List Nat := (submittedJobs history).flatMap Job.indexes

/-- What may happen between a coordinator and its workers: a job comes after what it waits for and is
given the values applied so far, and a job that has been submitted finishes at any later time. -/
inductive History : List Event → Prop where
  | start : History []
  | submit {history : List Event} {job : Job} (h : History history)
      (ordered : Ordered (accessesOf transactions).Edge (finishedIndexes history ++ job.indexes))
      (fresh : (finishedIndexes history ++ job.indexes).Nodup)
      (once : (submittedIndexes history ++ job.indexes).Nodup)
      (values : job.values = freeze (applyOutputs .empty (finishedOutputs history))
        (declaredKeys transactions job.indexes)) :
      History (history ++ [.submitted job])
  | finish {history : List Event} {job : Job} {outputs : List (Nat × TransactionOutput)}
      (h : History history) (given : job ∈ submittedJobs history)
      (ran : job.run b rules parent transactions faults = .ok outputs) :
      History (history ++ [.finished job outputs])

variable {b rules parent transactions faults}
  {hist : List Event} {job : Job} {outputs : List (Nat × TransactionOutput)}

@[simp] lemma submittedJobs_submit :
    submittedJobs (hist ++ [.submitted job]) = submittedJobs hist ++ [job] := by
  simp [submittedJobs]

@[simp] lemma submittedJobs_finish :
    submittedJobs (hist ++ [.finished job outputs]) = submittedJobs hist := by
  simp [submittedJobs]

@[simp] lemma finishedOutputs_submit :
    finishedOutputs (hist ++ [.submitted job]) = finishedOutputs hist := by
  simp [finishedOutputs]

@[simp] lemma finishedOutputs_finish :
    finishedOutputs (hist ++ [.finished job outputs]) = finishedOutputs hist ++ outputs := by
  simp [finishedOutputs]

@[simp] lemma finishedIndexes_submit :
    finishedIndexes (hist ++ [.submitted job]) = finishedIndexes hist := by
  simp [finishedIndexes]

@[simp] lemma finishedIndexes_finish : finishedIndexes (hist ++ [.finished job outputs]) =
    finishedIndexes hist ++ outputs.map Prod.fst := by
  simp [finishedIndexes]

@[simp] lemma submittedIndexes_submit :
    submittedIndexes (hist ++ [.submitted job]) = submittedIndexes hist ++ job.indexes := by
  simp [submittedIndexes]

@[simp] lemma submittedIndexes_finish :
    submittedIndexes (hist ++ [.finished job outputs]) = submittedIndexes hist := by
  simp [submittedIndexes]

lemma History.nodup (h : History b rules parent transactions faults hist) :
    (submittedIndexes hist).Nodup := by
  induction h with
  | start => exact nodup_nil
  | submit h ord fresh once vs ih => simpa using once
  | finish h given ran ih => simpa using ih

lemma History.left {later : List Event}
    (h : History b rules parent transactions faults (hist ++ later)) :
    History b rules parent transactions faults hist := by
  induction later using reverseRecOn with
  | nil => simpa using h
  | append_singleton later e ih =>
    rw [← append_assoc] at h
    refine ih ?_
    generalize ha : hist ++ later ++ [e] = all at h
    cases h with
    | start => simp at ha
    | submit h ord fresh once vs => exact (append_inj' ha rfl).1 ▸ h
    | finish h given ran => exact (append_inj' ha rfl).1 ▸ h

lemma History.submitted {later : List Event}
    (h : History b rules parent transactions faults (hist ++ .submitted job :: later)) :
    Ordered (accessesOf transactions).Edge (finishedIndexes hist ++ job.indexes) ∧
      (finishedIndexes hist ++ job.indexes).Nodup ∧
      job.values = freeze (applyOutputs .empty (finishedOutputs hist))
        (declaredKeys transactions job.indexes) := by
  have hl : History b rules parent transactions faults (hist ++ [.submitted job]) := by
    refine @History.left _ _ _ _ _ _ later ?_
    simpa using h
  generalize ha : hist ++ [.submitted job] = all at hl
  cases hl with
  | start => simp at ha
  | submit h ord fresh once vs =>
    obtain ⟨rfl,hj⟩ := append_inj' ha rfl
    cases hj
    exact ⟨ord,fresh,vs⟩
  | finish h given ran => simpa using (append_inj' ha rfl).2

lemma History.submission (h : History b rules parent transactions faults hist)
    (hj : job ∈ submittedJobs hist) :
    ∃ pre, History b rules parent transactions faults pre ∧
      Ordered (accessesOf transactions).Edge (finishedIndexes pre ++ job.indexes) ∧
      (finishedIndexes pre ++ job.indexes).Nodup ∧
      job.values = freeze (applyOutputs .empty (finishedOutputs pre))
        (declaredKeys transactions job.indexes) := by
  obtain ⟨e,he,hs⟩ := mem_filterMap.mp hj
  obtain ⟨pre,later,rfl⟩ := append_of_mem he
  cases e with
  | submitted job' =>
    cases hs
    exact ⟨pre,h.left,h.submitted⟩
  | finished job' outputs => cases hs

lemma History.ran_of_mem (h : History b rules parent transactions faults hist)
    {e : Nat × TransactionOutput} (he : e ∈ finishedOutputs hist) :
    ∃ job ∈ submittedJobs hist, ∃ outputs last,
      executeAll b rules transactions faults (.new (job.view parent)) job.indexes =
        .ok (outputs,last) ∧ e ∈ outputs := by
  induction h with
  | start => cases he
  | submit h ord fresh once vs ih =>
    rw [finishedOutputs_submit] at he
    obtain ⟨job,hj,hr⟩ := ih he
    exact ⟨job,by rw [submittedJobs_submit]; exact mem_append_left _ hj,hr⟩
  | @finish hist job outputs h given ran ih =>
    rw [submittedJobs_finish]
    rw [finishedOutputs_finish] at he
    rcases mem_append.mp he with he | he
    · exact ih he
    · simp only [Job.run,bind_eq_ok,pure_ok_iff] at ran
      obtain ⟨⟨outputs,last⟩,ha,rfl⟩ := ran
      exact ⟨job,given,outputs,last,ha,he⟩

lemma History.produced (h : History b rules parent transactions faults hist) :
    ∀ e ∈ finishedOutputs hist, Produced b rules transactions e := by
  intro e he
  obtain ⟨job,_,outputs,last,ha,hm⟩ := h.ran_of_mem he
  exact produced_of_executeAll ha e hm

def Job.Sees (b : Backend) (rules : Rules) (parent : View) (transactions : List Transaction)
    (faults : Nat → NativeFaults) (job : Job) (index : Nat) (view : View) : Prop :=
  ∃ before after outputs s, job.indexes = before ++ index :: after ∧
    executeAll b rules transactions faults (.new (job.view parent)) before = .ok (outputs, s) ∧
    view = s.overlay.get

end Histories

section Views

variable {b : Backend} {rules : Rules} {parent : View} {transactions : List Transaction}
  {faults faults' : Nat → NativeFaults} {hist : List Event} {job : Job} {index : Nat}
  {view : View} {s : SignedSession} {tx : Transaction} {key : StateKey}

def lookup (parent : View) (outputs : List (Nat × TransactionOutput)) (key : StateKey) :
    Except StateError (Option Bytes) :=
  Overlay.get ⟨parent, applyOutputs .empty outputs⟩ key

variable {outputs l : List (Nat × TransactionOutput)}

variable {outputs' : List (Nat × TransactionOutput)} {pre : List Nat}
  {e : Nat × TransactionOutput} {last : SignedSession}

lemma lookup_congr
    (h : (applyOutputs .empty outputs).get key = (applyOutputs .empty outputs').get key) :
    lookup parent outputs key = lookup parent outputs' key := by
  simp only [lookup,Overlay.get,h]

lemma applyOutputs_append (vs : OrderedMap StateKey (Option Bytes))
    (outputs outputs' : List (Nat × TransactionOutput)) :
    applyOutputs vs (outputs ++ outputs') = applyOutputs (applyOutputs vs outputs) outputs' :=
  foldl_append

lemma get_over {vs : OrderedMap StateKey (Option Bytes)}
    (h : vs.get key = (applyOutputs .empty outputs).get key) :
    Overlay.get ⟨Overlay.get ⟨parent,vs⟩,applyOutputs .empty outputs'⟩ key =
      lookup parent (outputs ++ outputs') key := by
  have hb : (applyOutputs .empty (outputs ++ outputs')).get key =
      ((applyOutputs .empty outputs').get key).or (vs.get key) := by
    rw [applyOutputs_append,h,get_applyOutputs_over]
  simp only [lookup,Overlay.get,hb]
  cases (applyOutputs .empty outputs').get key <;> rfl

lemma get_session {finished : List (Nat × TransactionOutput)}
    (hr : executeAll b rules transactions faults (.new (job.view parent)) pre = .ok (outputs,s))
    (hk : job.values.get key = (applyOutputs .empty finished).get key) :
    s.overlay.get key = lookup parent (finished ++ outputs) key := by
  obtain ⟨-,ho⟩ := executeAll_spec hr
  rw [ho]
  exact get_over hk

lemma get_serial
    (hr : executeAll b rules transactions faults (.new parent) (range index) = .ok (outputs,s)) :
    s.overlay.get key = lookup parent outputs key := by
  obtain ⟨-,ho⟩ := executeAll_spec hr
  rw [ho]
  rfl

lemma eq_of_outputs {l' : List (Nat × TransactionOutput)} (hp : l.map Prod.fst = l'.map Prod.fst)
    (hs : ∀ k out out', (k,out) ∈ l → (k,out') ∈ l' → out = out') : l = l' := by
  induction l generalizing l' with
  | nil => exact (map_eq_nil_iff.mp hp.symm).symm
  | cons e rest ih =>
    cases l' with
    | nil => cases hp
    | cons e' rest' =>
      obtain ⟨hf,hr⟩ := cons.inj hp
      have heq : e = e' := by
        refine Prod.ext hf (hs e.1 e.2 e'.2 mem_cons_self ?_)
        rw [hf]
        exact mem_cons_self
      rw [heq,ih hr fun k out out' hm hm' =>
        hs k out out' (mem_cons_of_mem _ hm) (mem_cons_of_mem _ hm')]

lemma map_filter_fst (p : Nat → Bool) :
    (l.filter fun e => p e.1).map Prod.fst = (l.map Prod.fst).filter p := by
  rw [filter_map]
  rfl

lemma runtime_of_executeAll {base : View} {indexes : List Nat}
    (h : executeAll b rules transactions faults (.new base) indexes = .ok (outputs,s)) :
    s.overlay.get runtimeKey = base runtimeKey := by
  obtain ⟨-,ho⟩ := executeAll_spec h
  have hn : (applyOutputs .empty outputs).get runtimeKey = none :=
    get_runtimeKey (produced_of_executeAll h) .empty
  rw [ho]
  simp only [Overlay.get,SignedSession.new,hn]

lemma History.runtime (h : History b rules parent transactions faults hist)
    (hj : job ∈ submittedJobs hist)
    (hs : job.Sees b rules parent transactions faults index view) :
    view runtimeKey = parent runtimeKey := by
  obtain ⟨past,hp,-,-,hv⟩ := h.submission hj
  obtain ⟨pre,after,outputs,session,-,hr,rfl⟩ := hs
  have hn : job.values.get runtimeKey = none := by
    rw [hv,get_freeze,get_runtimeKey hp.produced]
    exact ite_self _
  rw [runtime_of_executeAll hr]
  simp only [Job.view,Overlay.get,hn]

lemma History.sees_of_mem (h : History b rules parent transactions faults hist)
    (he : e ∈ finishedOutputs hist) :
    ∃ job ∈ submittedJobs hist, ∃ view tx,
      job.Sees b rules parent transactions faults e.1 view ∧ transactions[e.1]? = some tx ∧
      SignedSession.output b rules view (faults e.1) tx = .ok e.2 := by
  obtain ⟨job,hj,outputs,last,ha,hm⟩ := h.ran_of_mem he
  obtain ⟨pre,after,outs,mid,tx,hi,hb,ht,ho⟩ := executed_of_mem ha hm
  exact ⟨job,hj,mid.overlay.get,tx,⟨pre,after,outs,mid,hi,hb,rfl⟩,ht,ho⟩

lemma range_split {n i : Nat} {after : List Nat} (h : range n = pre ++ i :: after) :
    pre = range i := by
  have hg : (range n)[pre.length]? = some i := by rw [h]; simp
  obtain ⟨hl,hi⟩ := List.getElem?_eq_some_iff.mp hg
  rw [getElem_range] at hi
  have ht : pre = (range n).take pre.length := by rw [h]; simp
  rw [ht,hi,take_range]
  rw [length_range] at hl
  rw [Nat.min_eq_left (by omega)]

lemma serial_of_mem
    (h : executeAll b rules transactions faults (.new parent) (range index) = .ok (outputs,last))
    (he : e ∈ outputs) :
    ∃ s tx, serialSession b rules transactions faults parent e.1 = .ok s ∧
      s.overlay.get runtimeKey = parent runtimeKey ∧ transactions[e.1]? = some tx ∧
      SignedSession.output b rules s.overlay.get (faults e.1) tx = .ok e.2 := by
  obtain ⟨pre,after,outs,mid,tx,hi,hb,ht,ho⟩ := executed_of_mem h he
  have hr := runtime_of_executeAll hb
  rw [range_split hi] at hb
  exact ⟨mid,tx,by simp only [serialSession,hb,ok_bind,pure_eq_ok],hr,ht,ho⟩

open Classical in
lemma get_writers (hl : ∀ e ∈ l, Produced b rules transactions e) (key : StateKey) :
    (applyOutputs .empty l).get key = (applyOutputs .empty (l.filter fun e =>
      decide ((accessesOf transactions).writes (.inl key) e.1))).get key := by
  refine @get_applyOutputs_filter _ _ _ _
    (fun k => decide ((accessesOf transactions).writes (.inl key) k)) rfl fun e he hn change hc => ?_
  rintro rfl
  exact absurd ((hl e he).writes hc) (decide_eq_false_iff_not.mp hn)

def SeesSerial (b : Backend) (rules : Rules) (parent : View) (transactions : List Transaction)
    (faults faults' : Nat → NativeFaults) (index : Nat) : Prop :=
  ∀ history job view s tx, History b rules parent transactions faults history →
    job ∈ submittedJobs history → job.Sees b rules parent transactions faults index view →
    serialSession b rules transactions faults' parent index = .ok s →
    transactions[index]? = some tx → ∀ key ∈ tx.accessList, view key = s.overlay.get key

lemma SeesSerial.output_eq {out out' : TransactionOutput} {serial : List (Nat × TransactionOutput)}
    {k count : Nat}
    (hsa : SeesSerial b rules parent transactions faults faults' k)
    (h : History b rules parent transactions faults hist) (hj : job ∈ submittedJobs hist)
    (hse : job.Sees b rules parent transactions faults k view) (ht : transactions[k]? = some tx)
    (ho : SignedSession.output b rules view (faults k) tx = .ok out)
    (hser : executeAll b rules transactions faults' (.new parent) (range count) =
      .ok (serial,last)) (hm : (k,out') ∈ serial) : out = out' := by
  obtain ⟨s,tx',hs,hr,ht',ho'⟩ := serial_of_mem hser hm
  cases ht.symm.trans ht'
  refine output_unique ⟨hsa hist job view s tx h hj hse hs ht,?_⟩ ho ho'
  rw [h.runtime hj hse,hr]

lemma sees_serial (b : Backend) (rules : Rules) (parent : View) (transactions : List Transaction)
    (faults faults' : Nat → NativeFaults) (index : Nat) :
    SeesSerial b rules parent transactions faults faults' index := by
  classical
  induction index using Nat.strong_induction_on with
  | _ index ih =>
    intro hist job view s tx h hj hse hser ht key hk
    obtain ⟨past,hp,ho,hfr,hv⟩ := h.submission hj
    obtain ⟨pre,after,outputs,session,hi,hr,rfl⟩ := hse
    simp only [serialSession,bind_eq_ok,pure_ok_iff] at hser
    obtain ⟨⟨serial,last⟩,hser,rfl⟩ := hser
    have hd : key ∈ declaredKeys transactions job.indexes := by
      refine mem_flatMap.mpr ⟨index,?_,by rw [ht]; exact hk⟩
      rw [hi]
      exact mem_append_right _ mem_cons_self
    have hfro : job.values.get key = (applyOutputs .empty (finishedOutputs past)).get key := by
      rw [hv,get_freeze,if_pos hd]
    rw [get_session hr hfro,get_serial hser]
    -- An earlier transaction has one output, whether it finished before or is in the same chain.
    have hs : ∀ k out out', (k,out) ∈ finishedOutputs past ++ outputs → (k,out') ∈ serial →
        out = out' := by
      intro k out out' hm hm'
      have hl : k < index := by
        have hpl : k ∈ serial.map Prod.fst := mem_map.mpr ⟨(k,out'),hm',rfl⟩
        rw [(executeAll_spec hser).1] at hpl
        exact mem_range.mp hpl
      rcases mem_append.mp hm with hm | hm
      · obtain ⟨job',hj',view',tx',hs',ht',hou⟩ := hp.sees_of_mem hm
        exact (ih k hl).output_eq hp hj' hs' ht' hou hser hm'
      · obtain ⟨first,rest,outs,mid,tx',hsp,hf,ht',hou⟩ := executed_of_mem hr hm
        have hs' : job.Sees b rules parent transactions faults k mid.overlay.get :=
          ⟨first,rest ++ index :: after,outs,mid,by rw [hi,hsp]; simp,hf,rfl⟩
        exact (ih k hl).output_eq h hj hs' ht' hou hser hm'
    -- Only the writers of the key matter, and they come in the serial order.
    have hpla : (finishedOutputs past ++ outputs).map Prod.fst = finishedIndexes past ++ pre := by
      rw [map_append,(executeAll_spec hr).1]
      rfl
    have hsp : finishedIndexes past ++ job.indexes =
        (finishedIndexes past ++ pre ++ [index]) ++ after := by
      rw [hi]
      simp
    rw [hsp] at ho hfr
    have hw := Accesses.filter_writers ho.left hfr.of_append_left ((touches_key ht).mpr hk)
    have hpr : ∀ e ∈ finishedOutputs past ++ outputs, Produced b rules transactions e :=
      fun e he => (mem_append.mp he).elim (hp.produced e) (produced_of_executeAll hr e)
    refine lookup_congr ?_
    rw [get_writers hpr,get_writers (produced_of_executeAll hser)]
    congr 2
    refine eq_of_outputs ?_ fun k out out' hm hm' =>
      hs k out out' (mem_of_mem_filter hm) (mem_of_mem_filter hm')
    rw [map_filter_fst fun k => decide ((accessesOf transactions).writes (.inl key) k),
      map_filter_fst fun k => decide ((accessesOf transactions).writes (.inl key) k),hpla,
      (executeAll_spec hser).1]
    exact hw

end Views

end Astrolune.Execution

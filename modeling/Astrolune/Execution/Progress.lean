import Astrolune.Execution.Serial

namespace Astrolune.Execution
open Lib Codec Crypto State GreedyScheduler List

section Graphs

variable {transactions : List Transaction} {i j : Nat}

lemma mem_getD_iff {l : List (List Nat)} : i ∈ l.getD j [] ↔ ∃ inner, l[j]? = some inner ∧ i ∈ inner := by
  rw [getD_eq_getElem?_getD]
  cases l[j]? <;> simp

lemma mem_dependencies_iff :
    i ∈ (dependencies transactions).getD j [] ↔ (accessesOf transactions).Edge j i :=
  mem_getD_iff.trans dependsOn_iff

@[simp] lemma length_dependencies : (dependencies transactions).length = transactions.length :=
  (scanned transactions).length

lemma dependencies_nodup : ∀ prev ∈ dependencies transactions, prev.Nodup := by
  refine @foldl_zipIdx_invariant _ _ DependencyScan.visit
    (fun _ s => ∀ prev ∈ s.dependencies, prev.Nodup) transactions _ (by simp) ?_
  intro n tx s _ hs prev hm
  rcases mem_append.mp hm with hm | hm
  · exact hs prev hm
  · rw [mem_singleton.mp hm]
    exact nodup_dedup _

lemma getD_foldl_modify {index : Nat} {prev : List Nat} (hn : prev.Nodup)
    (succs : List (List Nat)) (hb : ∀ p ∈ prev, p < succs.length) :
    (prev.foldl (fun succs p => succs.modify p (· ++ [index])) succs).length =
        succs.length ∧
    (prev.foldl (fun succs p => succs.modify p (· ++ [index])) succs).getD i [] =
      succs.getD i [] ++ if i ∈ prev then [index] else [] := by
  induction prev generalizing succs with
  | nil => simp
  | cons first rest ih =>
    obtain ⟨hf,hr⟩ := nodup_cons.mp hn
    obtain ⟨hlt,hb⟩ := forall_mem_cons.mp hb
    obtain ⟨hl,hg⟩ := ih hr (succs.modify first (· ++ [index])) (by simpa using hb)
    rw [foldl_cons]
    refine ⟨by rw [hl,length_modify],?_⟩
    rw [hg,getD_eq_getElem?_getD,getElem?_modify,getD_eq_getElem?_getD]
    by_cases heq : first = i
    · subst heq
      simp [hf,getElem?_eq_getElem hlt]
    · simp [heq,Ne.symm heq]

lemma getD_successorIndexes {deps : List (List Nat)} (hno : ∀ l ∈ deps, l.Nodup)
    (he : ∀ j, ∀ i ∈ deps.getD j [], i < j) :
    (successorIndexes deps).getD i [] = (range deps.length).filter (i ∈ deps.getD · []) := by
  have hi := @foldl_zipIdx_invariant _ _ (fun succs (e : List Nat × Nat) =>
      e.1.foldl (fun succs prev => succs.modify prev (· ++ [e.2])) succs)
    (fun n s => s.length = deps.length ∧
      ∀ i, s.getD i [] = (range n).filter (i ∈ deps.getD · [])) deps
    (replicate deps.length []) ?_ ?_
  · exact hi.2 i
  · refine ⟨length_replicate,fun i => ?_⟩
    rw [getD_eq_getElem?_getD,getElem?_replicate]
    split <;> simp
  · rintro n prev s hg ⟨hl,hs⟩
    have hpr : deps.getD n [] = prev := by rw [getD_eq_getElem?_getD,hg]; rfl
    have hn := (List.getElem?_eq_some_iff.mp hg).1
    have hb : ∀ p ∈ prev, p < s.length := fun p hp => by
      have := he n p (hpr ▸ hp)
      omega
    refine ⟨(getD_foldl_modify (i := 0) (hno _ (mem_of_getElem? hg)) s hb).1.trans hl, fun i => ?_⟩
    rw [(getD_foldl_modify (hno _ (mem_of_getElem? hg)) s hb).2,hs, range_succ,filter_append,← hpr]
    simp [filter_cons]

lemma graph (transactions : List Transaction) :
    Graph (dependencies transactions) (Coordinator.successors transactions) where
  earlier i j hj := (mem_dependencies_iff.mp hj).lt
  once i := by
    rw [getD_eq_getElem?_getD]
    cases hg : (dependencies transactions)[i]? with
    | none => exact nodup_nil
    | some prev => exact dependencies_nodup prev (mem_of_getElem? hg)
  onceBack i := by
    rw [Coordinator.successors,getD_successorIndexes dependencies_nodup
      fun j i hi => (mem_dependencies_iff.mp hi).lt]
    exact nodup_range.filter _
  back i j := by
    rw [Coordinator.successors,getD_successorIndexes dependencies_nodup
      fun j i hi => (mem_dependencies_iff.mp hi).lt]
    simp only [mem_filter,mem_range,decide_eq_true_eq]
    exact ⟨fun h => h.2,fun h => ⟨Counters.bound_of_mem h,h⟩⟩

end Graphs

section Runs

variable {b : Backend} {rules : Rules} {parent : View} {transactions : List Transaction}
  {faults : Nat → NativeFaults} {c c' : Coordinator}

def Coordinator.busy (c : Coordinator) : List Nat := c.inFlight.flatMap Job.indexes

/-- The coordinator agrees with what has happened so far. -/
structure Consistent (b : Backend) (rules : Rules) (parent : View) (transactions : List Transaction)
    (faults : Nat → NativeFaults) (c : Coordinator) : Prop where
  history : History b rules parent transactions faults c.history
  tracks : c.counters.Tracks (dependencies transactions) (finishedIndexes c.history) c.busy
  values : c.values = applyOutputs .empty (finishedOutputs c.history)
  completed : c.completed = (finishedIndexes c.history).length
  ordered : Ordered (accessesOf transactions).Edge (finishedIndexes c.history)
  submitted : (submittedIndexes c.history).Perm (finishedIndexes c.history ++ c.busy)
  given : ∀ job ∈ c.inFlight, job ∈ submittedJobs c.history ∧
    Counters.Taken (dependencies transactions) (finishedIndexes c.history) job.indexes

lemma consistent_start : Consistent b rules parent transactions faults (.start transactions) where
  history := .start
  tracks := Counters.tracks_start _
  values := rfl
  completed := rfl
  ordered := .nil
  submitted := .nil
  given job hj := by cases hj

lemma ordered_of_taken {finished indexes : List Nat}
    (h : Ordered (accessesOf transactions).Edge finished)
    (ht : Counters.Taken (dependencies transactions) finished indexes) :
    Ordered (accessesOf transactions).Edge (finished ++ indexes) :=
  h.append fun pre i after hs j he => ht.met pre i after hs j (mem_dependencies_iff.mpr he)

lemma history_submit {indexes : List Nat} {counters : Counters} :
    (c.submit transactions indexes counters).history = c.history ++
      [.submitted ⟨indexes,freeze c.values (declaredKeys transactions indexes)⟩] := rfl

namespace Consistent

variable (h : Consistent b rules parent transactions faults c)

include h in
lemma submit {indexes : List Nat} {counters : Counters} {fuel : Nat}
    (hta : c.counters.take (Coordinator.successors transactions) fuel = some (indexes,counters)) :
    Consistent b rules parent transactions faults (c.submit transactions indexes counters) := by
  obtain ⟨ht,htr⟩ := h.tracks.take (graph transactions) hta
  have hb : (c.submit transactions indexes counters).busy = c.busy ++ indexes := by
    simp [Coordinator.busy,Coordinator.submit]
  have hn := htr.nodup
  rw [← append_assoc] at hn
  refine ⟨.submit h.history (ordered_of_taken h.ordered ht) ?_ ?_ (by rw [h.values]),?_,?_,?_,
    ?_,?_,fun job hj => ?_⟩ <;>
    simp only [hb,history_submit,finishedIndexes_submit,finishedOutputs_submit,
      submittedIndexes_submit,submittedJobs_submit]
  · exact hn.sublist (Sublist.append_right (sublist_append_left _ _) _)
  · exact ((h.submitted.append_right indexes).nodup_iff).mpr hn
  · exact htr
  · exact h.values
  · exact h.completed
  · exact h.ordered
  · rw [← append_assoc]
    exact h.submitted.append_right indexes
  · rcases mem_append.mp hj with hj | hj
    · exact ⟨mem_append_left _ (h.given job hj).1,(h.given job hj).2⟩
    · cases mem_singleton.mp hj
      exact ⟨mem_append_right _ (mem_singleton_self _),ht⟩

include h in
lemma fill (idle : Nat) : Consistent b rules parent transactions faults (c.fill transactions idle) := by
  induction idle generalizing c with
  | zero => exact h
  | succ idle ih =>
    unfold Coordinator.fill
    split
    · exact h
    · next indexes counters ht => exact ih (h.submit ht)

end Consistent

lemma inFlight_fill (transactions : List Transaction) (idle : Nat) (c : Coordinator) :
    c.inFlight <+: (c.fill transactions idle).inFlight := by
  induction idle generalizing c with
  | zero => exact prefix_rfl
  | succ idle ih =>
    unfold Coordinator.fill
    split
    · exact prefix_rfl
    · next indexes counters _ =>
      exact (prefix_append c.inFlight _).trans (ih (c.submit transactions indexes counters))

lemma completed_fill (transactions : List Transaction) (idle : Nat) (c : Coordinator) :
    (c.fill transactions idle).completed = c.completed := by
  induction idle generalizing c with
  | zero => rfl
  | succ idle ih =>
    unfold Coordinator.fill
    split
    · rfl
    · next indexes counters _ => exact ih (c.submit transactions indexes counters)

lemma Consistent.inFlight_ne_nil (h : Consistent b rules parent transactions faults c) {pool : Nat}
    (hp : 0 < pool) (hl : c.completed < transactions.length) :
    (c.fill transactions (pool - c.inFlight.length)).inFlight ≠ [] := by
  cases hf : c.inFlight with
  | cons job rest =>
    obtain ⟨more,hm⟩ := inFlight_fill transactions (pool - (job :: rest).length) c
    rw [← hm,hf]
    exact cons_ne_nil _ _
  | nil =>
    have hr : c.counters.ready ≠ [] := by
      have htr := h.tracks
      rw [Coordinator.busy,hf] at htr
      refine htr.progress (graph transactions) ?_
      rw [← h.completed,length_dependencies]
      exact hl
    obtain ⟨idle,hi⟩ := Nat.exists_eq_succ_of_ne_zero (Nat.pos_iff_ne_zero.mp hp)
    rw [length_nil,Nat.sub_zero,hi]
    unfold Coordinator.fill
    split
    · next hno =>
      unfold Counters.take at hno
      split at hno
      · next he => exact absurd he hr
      · cases hno
    · next indexes counters ht =>
      obtain ⟨more,hm⟩ := inFlight_fill transactions idle (c.submit transactions indexes counters)
      intro hn
      rw [hn] at hm
      simp [Coordinator.submit] at hm

variable {outs : List (Nat × TransactionOutput)}

lemma tracks_publish {finished busy : List Nat}
    (h : c.counters.Tracks (dependencies transactions) finished (outs.map Prod.fst ++ busy)) :
    (outs.foldl (Coordinator.publish transactions) c).counters.Tracks (dependencies transactions)
      (finished ++ outs.map Prod.fst) busy := by
  induction outs generalizing c finished with
  | nil => simpa using h
  | cons e rest ih =>
    have hn := @ih (c.publish transactions e) (finished ++ [e.1]) (h.finish (graph transactions))
    simpa using hn

lemma foldl_publish (transactions : List Transaction) (outs : List (Nat × TransactionOutput))
    (c : Coordinator) :
    (outs.foldl (Coordinator.publish transactions) c).values = applyOutputs c.values outs ∧
    (outs.foldl (Coordinator.publish transactions) c).completed = c.completed + outs.length ∧
    (outs.foldl (Coordinator.publish transactions) c).inFlight = c.inFlight ∧
    (outs.foldl (Coordinator.publish transactions) c).history = c.history := by
  induction outs generalizing c with
  | nil => exact ⟨rfl,rfl,rfl,rfl⟩
  | cons e rest ih =>
    obtain ⟨hv,hc,hinFlight,hh⟩ := ih (c.publish transactions e)
    refine ⟨hv,?_,hinFlight,hh⟩
    have ho : (c.publish transactions e).completed = c.completed + 1 := rfl
    rw [foldl_cons,hc,ho,length_cons]
    omega

lemma map_fst_of_run {job : Job} (h : job.run b rules parent transactions faults = .ok outs) :
    outs.map Prod.fst = job.indexes := by
  simp only [Job.run,bind_eq_ok,pure_ok_iff] at h
  obtain ⟨⟨outs,last⟩,ha,rfl⟩ := h
  exact (executeAll_spec ha).1

lemma Consistent.receive (h : Consistent b rules parent transactions faults c) {place : Nat}
    {job : Job} (hpl : c.inFlight[place]? = some job)
    (hr : job.run b rules parent transactions faults = .ok outs) :
    Consistent b rules parent transactions faults (c.receive transactions place job outs) ∧
      c.completed < (c.receive transactions place job outs).completed := by
  have hi := map_fst_of_run hr
  obtain ⟨hg,ht⟩ := h.given job (mem_of_getElem? hpl)
  obtain ⟨hv,hc,hinFlight,hh⟩ := foldl_publish transactions outs
    { c with inFlight := c.inFlight.eraseIdx place, history := c.history ++ [.finished job outs] }
  have hp : c.busy.Perm (job.indexes ++ (c.inFlight.eraseIdx place).flatMap Job.indexes) := by
    obtain ⟨hl,rfl⟩ := List.getElem?_eq_some_iff.mp hpl
    exact ((getElem_cons_eraseIdx_perm hl).flatMap_right Job.indexes).symm
  have hb : (c.receive transactions place job outs).busy =
      (c.inFlight.eraseIdx place).flatMap Job.indexes := by
    rw [Coordinator.busy,Coordinator.receive,hinFlight]
  have htr := h.tracks.perm hp
  rw [← hi] at htr
  have ha : (c.receive transactions place job outs).history =
      c.history ++ [.finished job outs] := hh
  refine ⟨⟨?_,?_,?_,?_,?_,?_,fun other ho => ?_⟩,?_⟩
  · rw [ha]
    exact .finish h.history hg hr
  · rw [ha,hb,finishedIndexes_finish]
    exact tracks_publish htr
  · rw [ha,finishedOutputs_finish,applyOutputs_append,← h.values]
    exact hv
  · rw [ha,finishedIndexes_finish,length_append,length_map,← h.completed]
    exact hc
  · rw [ha,finishedIndexes_finish,hi]
    exact ordered_of_taken h.ordered ht
  · rw [ha,hb,submittedIndexes_finish,finishedIndexes_finish,hi,append_assoc]
    exact h.submitted.trans (hp.append_left _)
  · rw [ha,submittedJobs_finish,finishedIndexes_finish]
    rw [Coordinator.receive,hinFlight] at ho
    obtain ⟨ho,hm⟩ := h.given other (mem_of_mem_eraseIdx ho)
    exact ⟨ho,hm.nonempty,fun pre i after hsp k hk =>
      (hm.met pre i after hsp k hk).imp id (mem_append_left _)⟩
  · have hs : outs ≠ [] := fun hn => ht.nonempty (by rw [← hi,hn]; rfl)
    have hpo := length_pos_iff.mpr hs
    rw [Coordinator.receive,hc]
    exact Nat.lt_add_of_pos_right hpo

variable {pool : Nat}

lemma Consistent.round (h : Consistent b rules parent transactions faults c) (hpo : 0 < pool)
    (hl : c.completed < transactions.length) {choice : Nat} {res : Except ExecutionError Unit}
    (hr : c.round transactions b rules parent faults pool choice = (res,c')) :
    History b rules parent transactions faults c'.history ∧
    (res = .ok () → Consistent b rules parent transactions faults c' ∧ c.completed < c'.completed) ∧
    ∀ e, res = .error e →
      ∃ job ∈ submittedJobs c'.history, job.run b rules parent transactions faults = .error e := by
  have hf := h.fill (pool - c.inFlight.length)
  have hs := h.inFlight_ne_nil hpo hl
  have hc := completed_fill transactions (pool - c.inFlight.length) c
  unfold Coordinator.round at hr
  generalize c.fill transactions (pool - c.inFlight.length) = filled at *
  simp only at hr
  split at hr
  · next hno =>
    have hlt := Nat.mod_lt choice (length_pos_iff.mpr hs)
    rw [getElem?_eq_getElem hlt] at hno
    cases hno
  · next job hp =>
    obtain ⟨hg,-⟩ := hf.given job (mem_of_getElem? hp)
    split at hr
    · next e hru =>
      cases hr
      refine ⟨hf.history,fun ho => (by cases ho),fun e' he => ⟨job,hg,?_⟩⟩
      cases he
      exact hru
    · next outs hru =>
      cases hr
      obtain ⟨hn,hle⟩ := hf.receive hp hru
      rw [hc] at hle
      exact ⟨hn.history,fun _ => ⟨hn,hle⟩,fun e he => by cases he⟩

lemma Consistent.coordinate (h : Consistent b rules parent transactions faults c) (hp : 0 < pool)
    (choose : Nat → Nat) (ts : Nat) {res : Except ExecutionError Unit}
    (hru : c.coordinate transactions b rules parent faults pool choose ts = (res,c')) :
    History b rules parent transactions faults c'.history ∧
    (res = .ok () → Consistent b rules parent transactions faults c' ∧
      (transactions.length ≤ c.completed + ts → transactions.length ≤ c'.completed)) ∧
    ∀ e, res = .error e →
      ∃ job ∈ submittedJobs c'.history, job.run b rules parent transactions faults = .error e := by
  induction ts generalizing c with
  | zero =>
    cases hru
    exact ⟨h.history,fun _ => ⟨h,id⟩,fun e he => by cases he⟩
  | succ ts ih =>
    unfold Coordinator.coordinate at hru
    split at hru
    · next hl =>
      split at hru
      · next e next hro =>
        cases hru
        obtain ⟨hh,-,her⟩ := h.round hp hl hro
        exact ⟨hh,fun ho => (by cases ho),her⟩
      · next next hro =>
        obtain ⟨-,ho,-⟩ := h.round hp hl hro
        obtain ⟨hn,hles⟩ := ho rfl
        obtain ⟨hh,hd,her⟩ := ih hn hru
        refine ⟨hh,fun hr => ⟨(hd hr).1,fun hle => (hd hr).2 ?_⟩,her⟩
        omega
    · next hd =>
      cases hru
      exact ⟨h.history,fun _ => ⟨h,fun _ => not_lt.mp hd⟩,fun e he => by cases he⟩

end Runs

lemma poolSize_pos (transactions : List Transaction) {workers : Nat} (h : 0 < workers) :
    0 < poolSize transactions workers := by
  refine lt_min h ?_
  cases hm : ((plan transactions).map length).max? with
  | none => exact Nat.one_pos
  | some longest =>
    obtain ⟨hme,hl⟩ := max?_eq_some_iff.mp hm
    rw [Option.getD_some]
    by_contra hz
    -- If every wave were empty there would be no transaction, and then no wave.
    have he : ∀ wave ∈ plan transactions, wave = [] := fun wave hw => by
      have := hl _ (mem_map_of_mem (f := length) hw)
      exact length_eq_zero_iff.mp (by omega)
    have hn : transactions = [] := by
      have hle := (planned transactions).once.length_eq
      rw [length_range] at hle
      refine length_eq_zero_iff.mp (hle ▸ ?_)
      rw [length_eq_zero_iff,flatten_eq_nil_iff]
      exact he
    subst hn
    cases hm

/-- Whatever order the jobs finish in, the readiness executor submits every transaction once and
after what it depends on, is never left with unfinished transactions and idle workers, stops early
only for a transaction that failed, and executes each transaction on its serial values. -/
theorem readiness_complete (b : Backend) (rules : Rules) (parent : View)
    (transactions : List Transaction) (faults : Nat → NativeFaults) (workers : Nat)
    (hworkers : 0 < workers) (choose : Nat → Nat) (turns : Nat) :
    let pool := poolSize transactions workers
    let run := (Coordinator.start transactions).coordinate transactions b rules parent faults pool
      choose turns
    let history := run.2.history
    (submittedIndexes history).Nodup ∧
    (run.1 = .ok () → transactions.length ≤ turns →
      (submittedIndexes history).Perm (range transactions.length)) ∧
    (∀ e, run.1 = .error e →
      ∃ job ∈ submittedJobs history, job.run b rules parent transactions faults = .error e) ∧
    (∀ before job after, history = before ++ .submitted job :: after →
      ∀ first i rest, job.indexes = first ++ i :: rest →
        ∀ j, DependsOn transactions i j → j ∈ first ∨ j ∈ finishedIndexes before) ∧
    (run.1 = .ok () → run.2.completed < transactions.length →
      (run.2.fill transactions (pool - run.2.inFlight.length)).inFlight ≠ []) ∧
    ∀ job ∈ submittedJobs history, ∀ i view, job.Sees b rules parent transactions faults i view →
      ∀ faults' s tx, serialSession b rules transactions faults' parent i = .ok s →
        transactions[i]? = some tx → ∀ key ∈ tx.accessList, view key = s.overlay.get key := by
  intro pool run history
  have hpo : 0 < pool := poolSize_pos transactions hworkers
  obtain ⟨hh,ho,her⟩ := consistent_start.coordinate hpo choose turns
    (show _ = (run.1,run.2) from rfl)
  refine ⟨hh.nodup,fun hr ht => ?_,her,fun before job after hsp first i rest hj j
    he => ?_,fun hr hl => (ho hr).1.inFlight_ne_nil hpo hl,
    fun job hj i view hs faults' s tx hse htx => sees_serial b rules parent transactions faults
      faults' i history job view s tx hh hj hs hse htx⟩
  · obtain ⟨hf,hd⟩ := ho hr
    have ha := hd (ht.trans (Nat.le_add_left _ _))
    rw [hf.completed,← length_dependencies] at ha
    obtain ⟨hbu,hp⟩ := hf.tracks.complete ha
    have hsu := hf.submitted
    rw [hbu,append_nil] at hsu
    rw [length_dependencies] at hp
    exact hsu.trans hp
  · have hb : History b rules parent transactions faults (before ++ .submitted job :: after) :=
      hsp ▸ hh
    have hor := hb.submitted.1
    have hm := hor (finishedIndexes before ++ first) i rest (by rw [hj]; simp) j
      (dependsOn_iff.mp he)
    exact (mem_append.mp hm).symm

namespace SamplePayments

/-- The third payment spends what the first one paid, so they go to one worker; the other worker
finishes first. -/
def fusedRun : Except ExecutionError Unit × Coordinator :=
  (Coordinator.start block).coordinate block backend rules view (fun _ => .available)
    (poolSize block 2) (fun _ => 1) 3

end SamplePayments

open SamplePayments in
theorem readiness_complete_fused :
    (fusedRun.1 = .ok () ∧ (submittedJobs fusedRun.2.history).map Job.indexes = [[0, 2], [1]] ∧
      finishedIndexes fusedRun.2.history = [1, 0, 2]) ∧
    (submittedIndexes fusedRun.2.history).Perm (range block.length) := by
  have hr : fusedRun.1 = .ok () ∧
      (submittedJobs fusedRun.2.history).map Job.indexes = [[0,2],[1]] ∧
      finishedIndexes fusedRun.2.history = [1,0,2] := by decide +kernel
  have hc := (readiness_complete backend rules view block (fun _ => .available) 2 (by decide)
    (fun _ => 1) 3).2.1
  refine ⟨hr,?_⟩
  unfold fusedRun at hr ⊢
  exact hc hr.1 (by decide)

end Astrolune.Execution

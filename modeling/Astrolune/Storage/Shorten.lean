import Astrolune.Storage.Rebuild

namespace Astrolune.Storage
open Lib Codec State AppendOnlyStorage List

variable {H : Hasher}

/-- A log, and one that starts at a checkpoint of it. -/
structure Shortened (floor : Checkpoint) (log short : AppendOnlyStorage) : Prop where
  checkpoint : short.checkpoint = log.checkpoint
  state : short.state = log.state
  anchor : short.anchor = some floor
  transactions : short.transactions = log.transactions.prune (floor.height + 1)
  history : short.history = log.history.truncateBelow floor.height
  above : ∃ c, log.checkpoint = some c ∧ floor.height ≤ c.height

variable {height : UInt64} {rs : List Record} {log : AppendOnlyStorage} {cp head : Checkpoint}
  {es : List Undo}

lemma toNat_succ (h : height.toNat + 1 < 2 ^ 64) : (height + 1).toNat = height.toNat + 1 := by
  rw [UInt64.toNat_add]
  exact Nat.mod_eq_of_lt h

lemma shortened_anchor (h : Follows H rs log) (hc : log.checkpoint = some cp)
    (hr : cp.height.toNat + 1 < 2 ^ 64) :
    ∃ short, rebuild H [.anchor cp log.state] = .ok short ∧ Shortened cp log short := by
  have hl : cp.height < cp.height + 1 := UInt64.lt_iff_toNat_lt.mpr (by rw [toNat_succ hr]; omega)
  refine ⟨_,rfl,⟨hc.symm,rfl,rfl,?_,?_,cp,hc,UInt64.le_refl _⟩⟩
  · exact (RecentTransactions.prune_above (h.upto cp hc).transactions hl).symm
  · exact (StateHistory.truncateBelow_above (h.history cp hc)).symm

lemma Shortened.replay {fl : Checkpoint} {short next : AppendOnlyStorage} {r : Record}
    (h : Shortened fl log short) (hf : Follows H rs log)
    (hr : log.replay H r = .ok next) :
    ∃ next', short.replay H r = .ok next' ∧ Shortened fl next next' := by
  obtain ⟨cp,st,ha,rfl⟩ := replay_eq_ok.mp hr
  obtain ⟨c,hc,hfl⟩ := h.above
  obtain ⟨b,rfl⟩ := batch_of_some (hc ▸ ha)
  have ha' : applyRecord H (.batch b) short.checkpoint short.state = .ok (cp,st) := by
    rw [h.checkpoint,h.state]
    exact ha
  rw [applyRecord_batch] at ha
  obtain ⟨hh,-,-,-,hn⟩ := prepareBatch_ok ha
  have hlt := lt_of_prepareBatch ha hc
  have hb : fl.height + 1 ≤ b.block.header.height := by
    have hs := hn c hc
    have hl := UInt64.le_iff_toNat_le.mp hfl
    have hlt := cp.height.toNat_lt
    rw [UInt64.le_iff_toNat_le,toNat_succ (by omega),← hh]
    omega
  refine ⟨_,replay_eq_ok.mpr ⟨cp,st,ha',rfl⟩,
    ⟨rfl,rfl,?_,?_,?_,cp,rfl,UInt64.le_of_lt (UInt64.lt_of_le_of_lt hfl hlt)⟩⟩
  · simp only [replayed,h.checkpoint,hc,h.anchor]
    rfl
  · simp only [replayed,h.transactions]
    exact (RecentTransactions.prune_insert (hh ▸ (hf.upto_batch ha).transactions) hb).symm
  · simp only [replayed,h.checkpoint,h.state,h.history,hc]
    exact (StateHistory.truncateBelow_record (hf.history c hc) hfl).symm

variable {fr back : List Record}

lemma rebuild_shortened {pre : AppendOnlyStorage}
    (hf : rebuild H fr = .ok pre) (hc : pre.checkpoint = some cp)
    (hro : cp.height.toNat + 1 < 2 ^ 64) (h : rebuild H (fr ++ back) = .ok log) :
    ∃ short, rebuild H (.anchor cp pre.state :: back) = .ok short ∧ Shortened cp log short := by
  induction back using reverseRecOn generalizing log with
  | nil =>
    rw [append_nil,hf] at h
    cases h
    exact shortened_anchor (follows_of_rebuild hf) hc hro
  | append_singleton back last ih =>
    rw [← append_assoc] at h
    obtain ⟨middle,hm,hr⟩ := rebuild_snoc.mp h
    obtain ⟨short,hsh,hs⟩ := ih hm
    obtain ⟨next,hn,hs'⟩ := hs.replay (follows_of_rebuild hm) hr
    refine ⟨next,?_,hs'⟩
    rw [← cons_append]
    exact rebuild_snoc.mpr ⟨short,hsh,hn⟩

lemma rebuild_heights {pre : AppendOnlyStorage}
    (hf : rebuild H fr = .ok pre) (hcp : pre.checkpoint = some cp)
    (h : rebuild H (fr ++ back) = .ok log) (hh : log.checkpoint = some head) :
    ∃ bts : List CommitBatch,
      back = bts.map .batch ∧ head.height.toNat = cp.height.toNat + bts.length ∧
      bts.map (·.block.header.height.toNat) = range' (cp.height.toNat + 1) bts.length := by
  induction back using reverseRecOn generalizing log head with
  | nil =>
    rw [append_nil,hf] at h
    cases h
    rw [hcp] at hh
    cases hh
    exact ⟨[],rfl,rfl,rfl⟩
  | append_singleton back last ih =>
    rw [← append_assoc] at h
    obtain ⟨middle,hm,hr⟩ := rebuild_snoc.mp h
    have hs : middle.checkpoint.isSome = true := by
      refine (follows_of_rebuild hm).started.mpr fun hni => ?_
      have := (follows_of_rebuild hf).started.mp (by rw [hcp]; rfl)
      exact this (append_eq_nil_iff.mp hni).1
    obtain ⟨c,hc⟩ := Option.isSome_iff_exists.mp hs
    obtain ⟨bts,rfl,hl,hhei⟩ := ih hm hc
    obtain ⟨cp',st,ha,rfl⟩ := replay_eq_ok.mp hr
    obtain ⟨b,rfl⟩ := batch_of_some (hc ▸ ha)
    rw [applyRecord_batch] at ha
    obtain ⟨hhe,-,-,-,hn⟩ := prepareBatch_ok ha
    have hst := hn c hc
    obtain rfl : cp' = head := Option.some.inj hh
    refine ⟨bts ++ [b],by simp,?_,?_⟩
    · rw [length_append,length_singleton]
      omega
    · rw [map_append,hhei,length_append,length_singleton,
        range'_1_concat,map_singleton,← hhe,hst,hl]
      congr 2
      omega

/-- Each entry takes the log back by one record. -/
inductive Undoes (H : Hasher) : List Record → List Undo → Prop where
  | nil (records : List Record) : Undoes H records []
  | snoc {records : List Record} {entries : List Undo} {before after : AppendOnlyStorage}
      {r : Record} {u : Undo} (h : Undoes H records entries)
      (hbefore : rebuild H records = .ok before) (hcp : before.checkpoint = some u.before)
      (hafter : rebuild H (records ++ [r]) = .ok after)
      (hcp' : after.checkpoint = some u.after)
      (hundo : applyTo u.diff.changes after.state.map = before.state.map) :
      Undoes H (records ++ [r]) (entries ++ [u])

lemma Undoes.suffix {rest : List Undo} (h : Undoes H rs es)
    (hr : rest <:+ es) : Undoes H rs rest := by
  induction h generalizing rest with
  | nil rs =>
    obtain rfl := suffix_nil.mp hr
    exact .nil _
  | snoc h hb hc ha hc' hu ih =>
    rcases suffix_concat_iff.mp hr with rfl | ⟨t,rfl,ht⟩
    · exact .nil _
    · exact .snoc (ih ht) hb hc ha hc' hu

lemma undoes_of_rebuild (h : rebuild H rs = .ok log) : Undoes H rs log.history.entries := by
  induction rs using reverseRecOn generalizing log with
  | nil =>
    cases h
    exact .nil _
  | append_singleton rs last ih =>
    obtain ⟨pre,hb,hr⟩ := rebuild_snoc.mp h
    obtain ⟨cp,st,ha,rfl⟩ := replay_eq_ok.mp hr
    cases last with
    | anchor cp' state' =>
      cases hcu : pre.checkpoint with
      | some c =>
        rw [hcu] at ha
        cases ha
      | none =>
        simp only [replayed,((follows_of_rebuild hb).fresh hcu).2.2]
        exact .nil _
    | batch b =>
      rw [applyRecord_batch] at ha
      obtain ⟨-,-,-,hm,-⟩ := prepareBatch_ok ha
      simp only [replayed]
      cases hcu : pre.checkpoint with
      | none => exact .nil _
      | some c =>
        cases hc : capture c cp pre.state b.stateDiffs with
        | none =>
          simp only [StateHistory.record,hc]
          exact .nil _
        | some undo =>
          obtain ⟨hf,ht,hu⟩ := capture_ok hc
          simp only [StateHistory.record,hc]
          refine Undoes.suffix (.snoc (ih hb) hb (hf ▸ hcu) h (ht ▸ rfl) ?_)
            (StateHistory.evict_suffix _ _ _)
          rw [← hu,← hm]
          rfl

lemma readBack_ok {cp' : Checkpoint} {vs values' : Values} {head : StateMap}
    (hu : Undoes H rs es) (hl : rebuild H rs = .ok log)
    (hc : log.checkpoint = some cp)
    (hv : ∀ k, log.state.map.get k = (vs.get k).getD (head.get k))
    (h : readBack height es.reverse cp vs = .ok (cp',values')) :
    ∃ fr back pre, rs = fr ++ back ∧ rebuild H fr = .ok pre ∧
      pre.checkpoint = some cp' ∧ cp'.height = height ∧
      ∀ k, pre.state.map.get k = (values'.get k).getD (head.get k) := by
  induction hu generalizing log cp vs with
  | nil rs => cases h
  | @snoc rs es pre after r u hp hbe hcpb ha hcp hun ih =>
    rw [ha] at hl
    cases hl
    rw [reverse_append,reverse_singleton,singleton_append,readBack] at h
    have hb : ∀ k, pre.state.map.get k =
        ((u.diff.changes.foldl noteChange vs).get k).getD (head.get k) := fun k =>
      hun ▸ get_applyTo u.diff.changes vs after.state.map head hv k
    split at h
    · cases h
    · simp only at h
      split at h
      · next hh =>
        cases h
        exact ⟨rs,[r],pre,rfl,hbe,hcpb,hh,hb⟩
      · obtain ⟨fr,back,b,rfl,hr⟩ := ih hbe hcpb hb h
        exact ⟨fr,back ++ [r],b,by simp,hr⟩

lemma read_ok {st : InMemoryState} (hl : rebuild H rs = .ok log)
    (h : log.history.read H height log.checkpoint log.state = .ok (some (cp,st))) :
    ∃ fr back pre, rs = fr ++ back ∧ rebuild H fr = .ok pre ∧
      pre.checkpoint = some cp ∧ pre.state = st ∧ cp.height = height := by
  cases hcu : log.checkpoint with
  | none =>
    rw [hcu] at h
    cases h
  | some cur =>
    rw [hcu,StateHistory.read] at h
    split at h
    · cases h
    · split at h
      · next hh =>
        cases h
        exact ⟨rs,[],log,by simp,hl,hcu,rfl,hh.symm⟩
      · simp only [bind_eq_ok,pure_ok_iff,Option.some.injEq] at h
        obtain ⟨⟨pre,vs⟩,hr,state',hc,heq⟩ := h
        cases heq
        obtain ⟨fr,back,b,hre,hf,hcp,hh,hm⟩ :=
          readBack_ok (undoes_of_rebuild hl) hl hcu (fun k => rfl) hr
        refine ⟨fr,back,b,hre,hf,hcp,InMemoryState.ext ?_,hh⟩
        have hc := failAs_eq_ok.mp hc
        simp only [InMemoryState.commitVerified,bind_eq_ok,ensure_eq_ok,pure_ok_iff] at hc
        obtain ⟨next,hp,-,-,rfl⟩ := hc
        rw [(InMemoryState.prepare_ok hp).2]
        refine OrderedMap.ext_get fun k => ?_
        rw [hm k]
        simpa using (get_applyTo_restoring vs log.state.map k).symm

lemma readBack_append {recent older : List Undo} {vs : Values}
    (h : ∃ u ∈ recent, u.before.height = height) :
    readBack height (recent ++ older) cp vs = readBack height recent cp vs := by
  induction recent generalizing cp vs with
  | nil =>
    obtain ⟨u,hu,-⟩ := h
    cases hu
  | cons v rest ih =>
    rw [cons_append,readBack,readBack]
    split
    · rfl
    · simp only
      split
      · rfl
      · next hn =>
        obtain ⟨u,hu,hh⟩ := h
        refine ih ⟨u,?_,hh⟩
        rcases mem_cons.mp hu with rfl | hu
        · exact absurd hh hn
        · exact hu

lemma Undoes.heights (h : Undoes H rs es)
    (hlo : rebuild H rs = .ok log) (hc : log.checkpoint = some cp) :
    es.length ≤ cp.height.toNat ∧ es.map (·.before.height.toNat) =
        range' (cp.height.toNat - es.length) es.length := by
  induction h generalizing log cp with
  | nil rs => exact ⟨Nat.zero_le _,rfl⟩
  | @snoc rs es pre after r u hp hb hcpb ha hcp hu ih =>
    rw [ha] at hlo
    cases hlo
    rw [hcp] at hc
    cases hc
    obtain ⟨hl,hh⟩ := ih hb hcpb
    obtain ⟨before',hb',hr⟩ := rebuild_snoc.mp ha
    rw [hb] at hb'
    cases hb'
    obtain ⟨cp',st,hap,rfl⟩ := replay_eq_ok.mp hr
    obtain ⟨b,rfl⟩ := batch_of_some (hcpb ▸ hap)
    rw [applyRecord_batch] at hap
    obtain ⟨-,-,-,-,hn⟩ := prepareBatch_ok hap
    have hs := hn u.before hcpb
    obtain rfl : cp' = u.after := Option.some.inj hcp
    rw [length_append,length_singleton]
    refine ⟨by omega,?_⟩
    rw [map_append,hh,map_singleton,range'_1_concat,hs]
    congr 2 <;> omega

namespace StateHistory

lemma mem_dropBelow {fl : UInt64} {l : List Undo} {bs cs : Nat} {u : Undo} (hu : u ∈ l)
    (hf : fl ≤ u.before.height) : u ∈ (dropBelow fl l bs cs).entries := by
  induction l generalizing bs cs with
  | nil => cases hu
  | cons v rest ih =>
    rw [dropBelow]
    split
    · next hl =>
      rcases mem_cons.mp hu with rfl | hu
      · exact absurd hl (UInt64.not_lt.mpr hf)
      · exact ih hu
    · exact hu

variable {h : StateHistory} {top : UInt64}

lemma Upto.floor_le (hu : h.Upto top) : h.floor top ≤ top := by
  rw [floor]
  split
  · exact UInt64.le_refl _
  · next u rest heq => exact UInt64.le_of_lt (hu.below u (heq ▸ mem_cons_self))

lemma Upto.floor_le_of_mem {u : Undo} (hu : h.Upto top)
    (hm : u ∈ h.entries) : h.floor top ≤ u.before.height := by
  rw [floor]
  split
  · next heq =>
    rw [heq] at hm
    cases hm
  · next v rest heq =>
    have hs := hu.sorted
    rw [heq] at hm hs
    rcases mem_cons.mp hm with rfl | hm
    · exact UInt64.le_refl _
    · exact (pairwise_cons.mp hs).1 u hm

lemma read_of_le {head : Checkpoint} {height : UInt64}
    {st : InMemoryState} (hf : h.floor head.height ≤ height)
    (hh : height ≤ head.height) : h.read H height (some head) st =
      if height = head.height then .ok (some (head,st))
      else do
        let (before,values) ← readBack height h.entries.reverse head .empty
        let st ← failAs .corrupt
          (st.commitVerified H (st.root H) [restoring values] before.stateRoot)
        return some (before,st) :=
  if_neg fun ho => ho.elim (UInt64.not_lt.mpr hh) (UInt64.not_lt.mpr hf)

end StateHistory

lemma exists_mem_of_floor_le (hlo : rebuild H rs = .ok log)
    (hh : log.checkpoint = some head) (hfl : log.history.floor head.height ≤ height)
    (hlow : height < head.height) : ∃ u ∈ log.history.entries, u.before.height = height := by
  obtain ⟨hl,hhe⟩ := (undoes_of_rebuild hlo).heights hlo hh
  have hm : height.toNat ∈ log.history.entries.map (·.before.height.toNat) := by
    rw [StateHistory.floor] at hfl
    split at hfl
    · exact absurd hlow (UInt64.not_lt.mpr hfl)
    · next u rest heq =>
      have hf : u.before.height.toNat = head.height.toNat - log.history.entries.length := by
        rw [heq,map_cons,length_cons,range'_succ] at hhe
        rw [heq,length_cons]
        exact (cons.inj hhe).1
      have hfl := UInt64.le_iff_toNat_le.mp hfl
      have hlow := UInt64.lt_iff_toNat_lt.mp hlow
      rw [hhe,mem_range'_1]
      omega
  obtain ⟨u,hu,heq⟩ := mem_map.mp hm
  exact ⟨u,hu,UInt64.toNat_inj.mp heq⟩

lemma read_truncateBelow {fl : UInt64} (hl : rebuild H rs = .ok log)
    (hh : log.checkpoint = some head) (hf : log.history.floor head.height ≤ fl)
    (hhe : fl ≤ height) :
    (log.history.truncateBelow fl).read H height log.checkpoint log.state =
      log.history.read H height log.checkpoint log.state := by
  have hup := (follows_of_rebuild hl).history head hh
  have hc : (log.history.truncateBelow fl).Upto head.height := StateHistory.upto_dropBelow hup
  rw [hh]
  by_cases hhi : head.height < height
  · rw [StateHistory.read,StateHistory.read,if_pos (.inl hhi),if_pos (.inl hhi)]
  have hhi := UInt64.not_lt.mp hhi
  by_cases ht : height = head.height
  · rw [StateHistory.read_of_le (ht ▸ hc.floor_le) hhi,StateHistory.read_of_le (ht ▸ hup.floor_le) hhi,
      if_pos ht,if_pos ht]
  obtain ⟨u,hu,rfl⟩ := exists_mem_of_floor_le hl hh (UInt64.le_trans hf hhe)
    (UInt64.lt_of_le_of_ne hhi ht)
  have hk : u ∈ (log.history.truncateBelow fl).entries := StateHistory.mem_dropBelow hu hhe
  obtain ⟨dropped,hd⟩ := StateHistory.dropBelow_suffix fl log.history.entries
    log.history.bytes log.history.changes
  have hb : readBack u.before.height log.history.entries.reverse head .empty =
      readBack u.before.height (log.history.truncateBelow fl).entries.reverse head .empty := by
    rw [← hd,reverse_append]
    exact readBack_append ⟨u,mem_reverse.mpr hk,rfl⟩
  rw [StateHistory.read_of_le (hc.floor_le_of_mem hk) hhi,
    StateHistory.read_of_le (hup.floor_le_of_mem hu) hhi,hb]

end Astrolune.Storage

import Astrolune.Storage.Compact
import Astrolune.Storage.Runs

namespace Astrolune.Storage
open Lib Codec State AppendOnlyStorage List

variable {H : Hasher} {T : Turn → Prop} {d : LogDisk} {log : AppendOnlyStorage}
  {full fd found' : List Record} {ret : Option RetentionRecord} {r : Record}

/-- The records themselves, or an anchor at one of their checkpoints and the records above it. -/
inductive Remains (H : Hasher) (full : List Record) : List Record → Prop where
  | all : Remains H full full
  | above {front back : List Record} {before : AppendOnlyStorage} {cp : Checkpoint}
      (split : full = front ++ back) (rebuilt : rebuild H front = .ok before)
      (checkpoint : before.checkpoint = some cp) (room : cp.height.toNat + 1 < 2 ^ 64) :
      Remains H full (.anchor cp before.state :: back)

def Nonzero (H : Hasher) (records : List Record) : Prop :=
  ∀ b, .batch b ∈ records → b.block.header.computeHash H ≠ Hash256.zero

structure Stems (H : Hasher) (full found : List Record) : Prop where
  remains : Remains H full found
  whole : ∃ log, rebuild H full = .ok log
  nonzero : Nonzero H full

lemma Remains.batches (h : Remains H full fd) {b : CommitBatch} (hb : .batch b ∈ fd) :
    .batch b ∈ full := by
  cases h with
  | all => exact hb
  | above split rebuilt cp room =>
    rw [split]
    rcases mem_cons.mp hb with hb | hb
    · cases hb
    · exact mem_append_right _ hb

lemma Remains.same (h : Remains H full fd) {whole : AppendOnlyStorage}
    (hw : rebuild H full = .ok whole) : ∃ short, rebuild H fd = .ok short ∧
      short.checkpoint = whole.checkpoint ∧ short.state = whole.state := by
  cases h with
  | all => exact ⟨whole,hw,rfl,rfl⟩
  | above split rebuilt cp room =>
    subst split
    obtain ⟨short,hsh,hs⟩ := rebuild_shortened rebuilt cp room hw
    exact ⟨short,hsh,hs.checkpoint,hs.state⟩

lemma Stems.snoc (h : Stems H full fd) {next : AppendOnlyStorage}
    (hn : rebuild H (fd ++ [r]) = .ok next)
    (hr : ∀ b, r = .batch b → b.block.header.computeHash H ≠ Hash256.zero) :
    Stems H (full ++ [r]) (fd ++ [r]) := by
  obtain ⟨whole,hw⟩ := h.whole
  obtain ⟨short,hs,hc,hst⟩ := h.remains.same hw
  obtain ⟨short',hs',hre⟩ := rebuild_snoc.mp hn
  rw [hs] at hs'
  cases hs'
  obtain ⟨cp,st,ha,-⟩ := replay_eq_ok.mp hre
  rw [hc,hst] at ha
  refine ⟨?_,⟨_,rebuild_snoc.mpr ⟨whole,hw,replay_eq_ok.mpr ⟨cp,st,ha,rfl⟩⟩⟩,?_⟩
  · cases h.remains with
    | all => exact .all
    | above split rebuilt checkpoint room =>
      rw [cons_append]
      exact .above (by rw [split,append_assoc]) rebuilt checkpoint room
  · intro b hb
    rcases mem_append.mp hb with hb | hb
    · exact h.nonzero b hb
    · exact hr b (mem_singleton.mp hb).symm

lemma Remains.front {fr back : List Record} {pre : AppendOnlyStorage}
    (h : Remains H full (fr ++ back)) (hw : ∃ log, rebuild H full = .ok log)
    (hfr : rebuild H fr = .ok pre) (hn : fr ≠ []) :
    ∃ front' before', full = front' ++ back ∧ rebuild H front' = .ok before' ∧
      before'.checkpoint = pre.checkpoint ∧ before'.state = pre.state := by
  obtain ⟨whole,hw⟩ := hw
  generalize hf : fr ++ back = fd at h
  cases h with
  | all => exact ⟨fr,pre,hf.symm,hfr,rfl,rfl⟩
  | above split rebuilt cp room =>
    obtain ⟨first,rest,rfl⟩ := exists_cons_of_ne_nil hn
    rw [cons_append] at hf
    obtain ⟨rfl,rfl⟩ := cons.inj hf
    rw [split,← append_assoc] at hw ⊢
    obtain ⟨middle,hm⟩ := rebuild_front hw
    obtain ⟨short,hsh,hs⟩ := rebuild_shortened rebuilt cp room hm
    rw [hfr] at hsh
    cases hsh
    exact ⟨_,middle,rfl,hm,hs.checkpoint.symm,hs.state.symm⟩

variable {fl : UInt64} {cp : Checkpoint} {s : LogState}

lemma Stems.shrunk (h : Stems H full fd)
    (hs : Shrunk H log fd fl found' ret) : Stems H full found' := by
  obtain ⟨head,cp,st,bts,hc,-,-,rfl,-⟩ := hs
  obtain ⟨fr,pre,rfl,hf,hcp,rfl⟩ := hc.split.parts
  have hn : fr ≠ [] := (follows_of_rebuild hf).started.mp (by rw [hcp]; rfl)
  obtain ⟨front',before',hfu,hf',hch,hst⟩ := h.remains.front h.whole hf hn
  refine ⟨?_,h.whole,h.nonzero⟩
  rw [replacing,← hst]
  exact .above hfu hf' (hch.trans hcp) hc.split.room

lemma block_of_rebuild (h : rebuild H fd = .ok log) (hs : ∀ r ∈ fd, r.Sound H) (hn : Nonzero H fd)
    (hc : log.checkpoint = some cp) : cp.block ≠ Hash256.zero := by
  cases fd using reverseRecOn with
  | nil =>
    cases h
    cases hc
  | append_singleton fr last =>
    have hl : last ∈ fr ++ [last] := mem_append_right _ (mem_singleton_self _)
    obtain ⟨pre,-,hr⟩ := rebuild_snoc.mp h
    obtain ⟨cp',st,ha,rfl⟩ := replay_eq_ok.mp hr
    obtain rfl : cp' = cp := Option.some.inj hc
    cases last with
    | anchor cp st =>
      have hb := (hs _ hl).1
      cases hcu : pre.checkpoint with
      | none =>
        rw [hcu] at ha
        cases ha
        exact hb
      | some c =>
        rw [hcu] at ha
        cases ha
    | batch b =>
      rw [applyRecord_batch] at ha
      rw [(prepareBatch_ok ha).2.1]
      exact hn b hl

lemma Stems.block (h : Stems H full fd) (hl : Live H inOrder d log fd) {st : InMemoryState}
    (hre : log.history.read H fl log.checkpoint log.state = .ok (some (cp,st))) :
    cp.block ≠ Hash256.zero := by
  obtain ⟨fr,back,pre,rfl,hf,hc,-⟩ := read_ok hl.rebuilt hre
  refine block_of_rebuild hf (fun r hr => ?_) (fun b hb => ?_) hc
  · exact (hl.valid.written r (mem_append_left _ hr)).1
  · exact h.nonzero b (h.remains.batches (mem_append_left _ hb))

def Compacted (H : Hasher) (T : Turn → Prop) (log : AppendOnlyStorage)
    (found : List Record) (s : LogState) : Prop :=
  (s.2.retention = log.retention ∧ Live H inOrder s.1 s.2 found) ∨
  (∃ floor records, Shrunk H log found floor records s.2.retention ∧
    Live H inOrder s.1 s.2 records) ∨
  (CanFail T ∧ s.2.poisoned = true ∧
    ∃ floor, Safe H inOrder s.1 (Shrinking H log found floor)) ∨
  (CanFail T ∧ s.2.poisoned = false ∧ ¬NoMarker s.1)

def CutOff (H : Hasher) (T : Turn → Prop) (log : AppendOnlyStorage)
    (found : List Record) (s : LogState) : Prop :=
  CanStop T ∧ (CanFail T ∨ ∃ floor, Safe H inOrder s.1 (Shrinking H log found floor))

lemma Live.withError (h : Live H inOrder d log fd) (e : Option StorageError) :
    Live H inOrder d { log with retentionError := e } fd := ⟨h.rebuilt,h.valid,h.holds⟩

lemma meets_tryCompact {budget : Nat} (hl : Live H inOrder d log fd)
    (hst : Stems H full fd) :
    Meets T (compact H fl budget) (d,log)
      ⟨fun _ => Compacted H T log fd,fun _ => Compacted H T log fd,
        CutOff H T log fd⟩ := by
  refine (meets_compact hl fun cp st => hst.block hl).mono ?_ ?_ ?_
  · rintro _ s (⟨hsa,hl',-⟩ | ⟨rs,hsh,hl',-⟩)
    · exact .inl ⟨by rw [hsa],hsa ▸ hl'⟩
    · exact .inr (.inl ⟨fl,rs,hsh,hl'⟩)
  · rintro _ s (⟨hsa,hl'⟩ | ⟨hf,hsa,hm⟩ | ⟨hf,hp,hs⟩)
    · exact .inl ⟨by rw [hsa],hsa ▸ hl'⟩
    · exact .inr (.inr (.inr ⟨hf,hsa ▸ hl.clean,hm⟩))
    · exact .inr (.inr (.inl ⟨hf,hp,fl,hs⟩))
  · intro s ⟨hsto,h⟩
    exact ⟨hsto,h.imp_right fun hs => ⟨fl,hs⟩⟩

lemma Compacted.withError (h : Compacted H T log fd s) (e : Option StorageError) :
    Compacted H T log fd (s.1,{ s.2 with retentionError := e }) := by
  rcases h with ⟨hs,hl⟩ | ⟨fl,rs,hsh,hl⟩ | h | h
  · exact .inl ⟨hs,hl.withError e⟩
  · exact .inr (.inl ⟨fl,rs,hsh,hl.withError e⟩)
  · exact .inr (.inr (.inl h))
  · exact .inr (.inr (.inr h))

lemma meets_evaluateRetention (hl : Live H inOrder d log fd) (hst : Stems H full fd) :
    Meets T (evaluateRetention H) (d,log)
      ⟨fun _ => Compacted H T log fd,fun _ _ => False,CutOff H T log fd⟩ := by
  apply meets_self
  cases hd : log.dueFloor with
  | none => exact Meets.pure (.inl ⟨rfl,hl⟩)
  | some target =>
    refine Meets.bind (R := fun _ => Compacted H T log fd) ?_ ?_
    · apply Meets.attempt
      exact (meets_tryCompact hl hst).mono (fun _ _ => id) (fun _ _ => id) (fun _ => id)
    · intro x s hs
      cases x with
      | error e => exact Meets.modify (hs.withError _)
      | ok _ => exact Meets.modify (hs.withError _)

lemma meets_prune (hl : Live H inOrder d log fd) (hs : Stems H full fd) :
    Meets T (prune H fl) (d,log) ⟨fun _ => Compacted H T log fd,fun _ => Compacted H T log fd,
        CutOff H T log fd⟩ := by
  apply meets_ready hl.clean
  apply meets_self
  split
  · exact Meets.pure (.inl ⟨rfl,hl⟩)
  · exact meets_tryCompact hl hs

def Goes (H : Hasher) (T : Turn → Prop) (full : List Record)
    (s : LogState) : Prop :=
  (∃ found, Live H inOrder s.1 s.2 found ∧ Stems H full found) ∨
  (CanFail T ∧ s.2.poisoned = true ∧ Safe H inOrder s.1 fun found _ => Stems H full found) ∨
  (CanFail T ∧ s.2.poisoned = false ∧ ¬NoMarker s.1)

lemma Stems.shrinking (h : Stems H full fd) (hs : Safe H inOrder d (Shrinking H log fd fl)) :
    Safe H inOrder d fun fd _ => Stems H full fd := by
  refine hs.mono ?_
  rintro _ _ (⟨rfl,-⟩ | hsh)
  · exact h
  · exact h.shrunk hsh

lemma Compacted.goes (h : Compacted H T log fd s) (hst : Stems H full fd) : Goes H T full s := by
  rcases h with ⟨-,hl⟩ | ⟨fl,rs,hsh,hl⟩ | ⟨hf,hp,fl,hs⟩ | h
  · exact .inl ⟨fd,hl,hst⟩
  · exact .inl ⟨rs,hl,hst.shrunk hsh⟩
  · exact .inr (.inl ⟨hf,hp,hst.shrinking hs⟩)
  · exact .inr (.inr h)

section Calls

variable {c : Call}

def Call.Nonzero (H : Hasher) (c : Call) : Prop :=
  ∀ b, c.record = some (.batch b) → b.block.header.computeHash H ≠ Hash256.zero

/-- How a call on a log ends that stems from the records in `full`. -/
def keeping (H : Hasher) (T : Turn → Prop) (c : Call) (full : List Record) :
    Post LogState StorageError Unit where
  ok _ := Goes H T (full ++ c.record.toList)
  error e s := Goes H T full s ∨
    (CanFail T ∧ s.2.poisoned = true ∧ ∃ r, c.record = some r ∧ e = .durabilityUnknown ∧
      Safe H inOrder s.1 fun found _ => Stems H full found ∨ Stems H (full ++ [r]) found)
  stopped s := CanStop T ∧ (CanFail T ∨ Safe H inOrder s.1 fun found _ =>
    Stems H full found ∨ Stems H (full ++ c.record.toList) found)

lemma CalmBy.valid {loss : Loss} {K : Pledges} {P : Finding}
    (h : CalmBy H loss d K P) :
    CalmBy H loss d K fun rs ret => P rs ret ∧
      Valid H rs ret where
  honors := h.honors
  untorn := h.untorn
  views v hv := by
    obtain ⟨hu,rs,ret,hP,hva,hp⟩ := h.views v hv
    exact ⟨hu,rs,ret,⟨hP,hva⟩,hva,hp⟩
  top := by
    obtain ⟨rs,ret,i,hP,hva,hp⟩ := h.top
    exact ⟨rs,ret,i,⟨hP,hva⟩,hva,hp⟩

lemma Stems.published (h : Stems H full fd)
    (hr : ∀ b, r = .batch b → b.block.header.computeHash H ≠ Hash256.zero)
    (hc : Calm H inOrder d (AtMost fd r ret)) :
    Safe H inOrder d fun fd _ =>
      Stems H full fd ∨ Stems H (full ++ [r]) fd := by
  obtain ⟨K,hc⟩ := hc
  refine hc.valid.safeBy.safe.mono ?_
  rintro _ _ ⟨⟨rfl | rfl,-⟩,hv⟩
  · exact .inl h
  · obtain ⟨next,hn,-⟩ := hv.rebuilt
    exact .inr (h.snoc hn hr)

lemma Stems.unrecorded {e : StorageError}
    (h : Stems H full fd) (hc : c.record = some r) (hn : c.Nonzero H)
    (hs : Storage.unrecorded H T inOrder log fd r e s) :
    (keeping H T c full).error e s := by
  rcases hs with ⟨hsa,hl⟩ | ⟨hf,rfl,hsa,hca⟩
  · exact .inl (.inl ⟨fd,hsa ▸ hl,h⟩)
  · refine .inr ⟨hf,by rw [hsa],r,hc,rfl,h.published (fun b hb => ?_) hca⟩
    exact hn b (hb ▸ hc)

lemma Stems.interrupted (h : Stems H full fd) (hc : c.record = some r) (hn : c.Nonzero H)
    (hs : CanStop T ∧ Calm H inOrder s.1 (AtMost fd r ret)) :
    (keeping H T c full).stopped s := by
  refine ⟨hs.1,.inr ?_⟩
  rw [hc]
  exact h.published (fun b hb => hn b (hb ▸ hc)) hs.2

lemma meets_call (hl : Live H inOrder d log fd) (hst : Stems H full fd) (hno : c.Nonzero H) :
    Meets T (c.perform H) (d,log) (keeping H T c full) := by
  cases c with
  | installAnchor cp st =>
    refine Meets.bind (R := fun _ s => Live H inOrder s.1 s.2 (fd ++ [.anchor cp st]))
      ((meets_installAnchor hl).mono (fun _ _ => And.left) (fun _ _ hs => hst.unrecorded rfl hno hs)
        (fun _ hs => hst.interrupted rfl hno hs)) ?_
    intro _ s hl'
    refine Meets.pure (.inl ⟨_,hl',hst.snoc hl'.rebuilt ?_⟩)
    intro b hb
    cases hb
  | commit b =>
    refine Meets.bind (R := fun _ => Goes H T (full ++ [Record.batch b])) ?_
      fun _ _ hs => Meets.pure hs
    refine meets_commit hl (fun cp d' next hn _ _ => ?_) (fun _ _ hs => hst.unrecorded rfl hno hs)
      (fun _ hs => hst.interrupted rfl hno hs)
    have hlo : Stems H (full ++ [.batch b]) (fd ++ [.batch b]) :=
      hst.snoc hn.rebuilt fun b' hb' => hno b' (congrArg some hb')
    refine Meets.bind (R := fun _ => Goes H T (full ++ [Record.batch b]))
      ((meets_evaluateRetention hn hlo).mono (fun _ _ hs => hs.goes hlo)
        (fun _ _ => False.elim) ?_) fun _ _ hs => Meets.pure hs
    intro s ⟨hsto,hs⟩
    exact ⟨hsto,hs.imp_right fun ⟨fl,hsa⟩ => (hlo.shrinking hsa).mono fun _ _ => .inr⟩
  | prune pre =>
    refine (meets_prune hl hst).mono (fun _ _ hs => ?_) (fun _ _ hs => .inl (hs.goes hst)) ?_
    · show Goes H T (full ++ []) _
      rw [append_nil]
      exact hs.goes hst
    · intro s ⟨hsto,hs⟩
      exact ⟨hsto,hs.imp_right fun ⟨fl,hsa⟩ => (hst.shrinking hsa).mono fun _ _ => .inl⟩
  | setRetentionPolicy policy =>
    refine Meets.modify (.inl ⟨fd,⟨hl.rebuilt,hl.valid,hl.holds⟩,?_⟩)
    show Stems H (full ++ []) fd
    rwa [append_nil]

end Calls

end Astrolune.Storage

import Astrolune.Storage.Chain
import Mathlib.Data.List.Induction

namespace Astrolune.Storage
open Lib Codec State List Option

def Written (H : Hasher) (r : Record) : Prop :=
  r.Sound H ∧ ∃ bytes, r.encode H = .ok bytes

lemma Written.encode {H : Hasher} {r : Record} (h : Written H r) :
    r.encode H = .ok (payload H r) := by
  obtain ⟨-,bs,hb⟩ := h
  rw [payload_of_encode hb,hb]

lemma Written.decode {H : Hasher} {r : Record} (h : Written H r) :
    (payload H r).length ≤ maxRecordBytes ∧
      Record.decode H (payload H r) = .ok r := Record.decode_encode h.1 h.encode

lemma batch_of_some {H : Hasher} {r : Record} {cp : Checkpoint}
    {st : InMemoryState} {res : Checkpoint × InMemoryState}
    (h : applyRecord H r (some cp) st = .ok res) : ∃ b, r = .batch b := by
  cases r with
  | anchor cp' state' => cases h
  | batch b => exact ⟨b,rfl⟩

namespace AppendOnlyStorage

variable (H : Hasher)

def nextLocation (log : AppendOnlyStorage) (r : Record) : Location where
  offset := log.endOffset
  endOffset := log.endOffset + (payload H r).length + frameOverhead
  previous := log.tip
  hash := frameHash H log.tip (payload H r)

def replay (log : AppendOnlyStorage) (r : Record) : Except StorageError AppendOnlyStorage := do
  let (cp, state) ← applyRecord H r log.checkpoint log.state
  return log.replayed H r (log.nextLocation H r) cp state

def core (log : AppendOnlyStorage) : AppendOnlyStorage :=
  { log with file := 0, policy := .disabled, retention := none, retentionError := none }

end AppendOnlyStorage

open AppendOnlyStorage

def rebuild (H : Hasher) (records : List Record) :
    Except StorageError AppendOnlyStorage :=
  records.foldlM (replay H) (unread H 0 none)

section Facts

variable {H : Hasher} {rs : List Record} {r : Record} {log : AppendOnlyStorage}

variable {next : AppendOnlyStorage} {b : CommitBatch} {st : InMemoryState} {cp : Checkpoint}

lemma replay_eq_ok : log.replay H r = .ok next ↔
    ∃ cp st, applyRecord H r log.checkpoint log.state = .ok (cp,st) ∧
      next = log.replayed H r (log.nextLocation H r) cp st := by
  simp only [replay,bind_eq_ok,pure_ok_iff,Prod.exists]
  exact exists₂_congr fun _ _ => and_congr_right fun _ => eq_comm

lemma rebuild_snoc : rebuild H (rs ++ [r]) = .ok log ↔
    ∃ pre, rebuild H rs = .ok pre ∧ pre.replay H r = .ok log := by
  simp only [rebuild,foldlM_append,bind_eq_ok,foldlM_cons,foldlM_nil,pure_ok_iff,exists_eq_right]

lemma replay_core (h : log.replay H r = .ok next) : log.core.replay H r = .ok next.core := by
  obtain ⟨cp,st,ha,rfl⟩ := replay_eq_ok.mp h
  exact replay_eq_ok.mpr ⟨cp,st,ha,rfl⟩

lemma rebuild_front {more : List Record} (h : rebuild H (rs ++ more) = .ok log) :
    ∃ pre, rebuild H rs = .ok pre := by
  rw [rebuild,foldlM_append,bind_eq_ok] at h
  obtain ⟨pre,hb,-⟩ := h
  exact ⟨pre,hb⟩

structure AppendOnlyStorage.Upto (log : AppendOnlyStorage) (top : UInt64) : Prop where
  transactions : log.transactions.Upto top
  index : ∀ height loc, log.index.get height = some loc → height ≤ top.toNat

/-- What the records of a log say about it. -/
structure Follows (H : Hasher) (records : List Record) (log : AppendOnlyStorage) :
    Prop where
  endOffset : log.endOffset = (image H records).length
  tip : log.tip = tipOf H records
  poisoned : log.poisoned = false
  started : log.checkpoint.isSome = true ↔ records ≠ []
  anchored : log.anchor.isSome = log.checkpoint.isSome
  fresh : log.checkpoint = none →
    log.transactions = .default ∧ log.index = .empty ∧ log.history = .default
  upto : ∀ cp, log.checkpoint = some cp → log.Upto cp.height
  history : ∀ cp, log.checkpoint = some cp → log.history.Upto cp.height
  root : ∀ cp, log.checkpoint = some cp → (∀ r ∈ records, r.Sound H) →
    cp.stateRoot = log.state.root H

lemma follows_unread (file : Nat) (ret : Option RetentionRecord) :
    Follows H [] (unread H file ret) where
  endOffset := by rw [image,framesFrom,append_nil,length_header]; rfl
  tip := rfl
  poisoned := rfl
  started := by simp [unread]
  anchored := rfl
  fresh _ := ⟨rfl,rfl,rfl⟩
  upto _ h := nomatch h
  history _ h := nomatch h
  root _ h := nomatch h

lemma endOffset_nextLocation (h : Follows H rs log) :
    (log.nextLocation H r).endOffset = (image H (rs ++ [r])).length := by
  rw [nextLocation,length_image_snoc,h.endOffset,Nat.add_assoc]

lemma nextLocation_eq (h : Follows H rs log) : log.nextLocation H r = locationOf H rs r := by
  have he := endOffset_nextLocation (r := r) h
  unfold locationOf
  rw [← he,← h.endOffset,← h.tip,tipOf_snoc,← h.tip]
  rfl

variable {cur : Option Checkpoint} {height : Nat}

lemma applyRecord_batch : applyRecord H (.batch b) cur st = prepareBatch H b cur st := by
  cases cur <;> rfl

lemma lt_of_prepareBatch {c : Checkpoint} {next : InMemoryState}
    (h : prepareBatch H b cur st = .ok (cp,next)) (hc : cur = some c) :
    c.height < cp.height := by
  obtain ⟨-,-,-,-,hn⟩ := prepareBatch_ok h
  have := hn c hc
  exact UInt64.lt_iff_toNat_lt.mpr (by omega)

lemma Follows.upto_batch (h : Follows H rs log)
    (hp : prepareBatch H b log.checkpoint log.state = .ok (cp,st)) :
    log.Upto cp.height := by
  cases hc : log.checkpoint with
  | none =>
    obtain ⟨ht,hi,-⟩ := h.fresh hc
    refine ⟨ht ▸ RecentTransactions.upto_default _,fun height loc hg => ?_⟩
    rw [hi] at hg
    cases hg
  | some c =>
    have hl : c.height ≤ cp.height := UInt64.le_of_lt (lt_of_prepareBatch hp hc)
    have ho := h.upto c hc
    exact ⟨ho.transactions.mono hl,fun height loc hg =>
      (ho.index height loc hg).trans (UInt64.le_iff_toNat_le.mp hl)⟩

lemma Follows.replay (h : Follows H rs log) (hr : log.replay H r = .ok next) :
    Follows H (rs ++ [r]) next := by
  obtain ⟨cp,st,ha,rfl⟩ := replay_eq_ok.mp hr
  have he := endOffset_nextLocation (r := r) h
  have ht : (log.nextLocation H r).hash = tipOf H (rs ++ [r]) := by
    rw [tipOf_snoc,← h.tip]
    rfl
  cases r with
  | anchor cp' state' =>
    cases hcu : log.checkpoint with
    | some c =>
      rw [hcu] at ha
      cases ha
    | none =>
      rw [hcu] at ha
      cases ha
      obtain ⟨htr,hi,hhi⟩ := h.fresh hcu
      refine ⟨he,ht,h.poisoned,by simp [replayed],by simp [replayed,hcu],
        (nomatch ·),fun c _ => ⟨?_,fun height loc hg => ?_⟩,fun c _ => ?_,
        fun c hc hs => ?_⟩
      · exact htr ▸ RecentTransactions.upto_default _
      · simp only [replayed,hi] at hg
        cases hg
      · exact hhi ▸ StateHistory.upto_default _
      · obtain rfl := some.inj hc
        exact (hs _ (mem_append_right _ mem_cons_self)).2
  | batch b =>
    rw [applyRecord_batch] at ha
    obtain ⟨hh,-,hro,-,-⟩ := prepareBatch_ok ha
    have hu := h.upto_batch ha
    refine ⟨he,ht,h.poisoned,by simp [replayed],?_,(nomatch ·),fun c hc => ?_,
      fun c hc => ?_,fun c hc _ => ?_⟩
    · cases hcu : log.checkpoint with
      | none => simp [replayed,hcu]
      | some c => simp [replayed,hcu,h.anchored]
    · obtain rfl := some.inj hc
      refine ⟨?_,fun height loc hg => ?_⟩
      · exact hh ▸ RecentTransactions.upto_insert (hh ▸ hu.transactions)
      · simp only [replayed] at hg
        rw [OrderedMap.get_insert] at hg
        split at hg
        · next heq => rw [heq,hh]
        · exact hu.index height loc hg
    · obtain rfl := some.inj hc
      cases hcu : log.checkpoint with
      | none =>
        simp only [replayed,hcu]
        exact StateHistory.upto_default _
      | some c =>
        simp only [replayed,hcu]
        exact StateHistory.upto_record (h.history c hcu) (lt_of_prepareBatch ha hcu)
    · obtain rfl := some.inj hc
      exact hro

lemma follows_of_rebuild (h : rebuild H rs = .ok log) : Follows H rs log := by
  induction rs using reverseRecOn generalizing log with
  | nil =>
    cases h
    exact follows_unread 0 none
  | append_singleton fr last ih =>
    obtain ⟨pre,hb,hr⟩ := rebuild_snoc.mp h
    exact (ih hb).replay hr

def Stands (records : List Record) (height : Nat) (front : List Record) (b : CommitBatch) : Prop :=
  b.block.header.height.toNat = height ∧ ∃ back, records = front ++ .batch b :: back

lemma stands_snoc {fr : List Record} : Stands (rs ++ [r]) height fr b ↔
      (b.block.header.height.toNat = height ∧ fr = rs ∧ r = .batch b) ∨ Stands rs height fr b := by
  constructor
  · rintro ⟨hh,back,heq⟩
    cases back using reverseRecOn with
    | nil =>
      obtain ⟨hf,hl⟩ := append_inj' heq rfl
      exact .inl ⟨hh,hf.symm,singleton_inj.mp hl⟩
    | append_singleton back last =>
      rw [← cons_append,← append_assoc] at heq
      exact .inr ⟨hh,back,(append_inj' heq rfl).1⟩
  · rintro (⟨hh,rfl,rfl⟩ | ⟨hh,back,rfl⟩)
    · exact ⟨hh,[],rfl⟩
    · exact ⟨hh,back ++ [r],by simp⟩

lemma Follows.index_next (h : Follows H rs log)
    (hp : prepareBatch H b log.checkpoint log.state = .ok (cp,st)) :
    log.index.get b.block.header.height.toNat = none := by
  obtain ⟨hh,-,-,-,hn⟩ := prepareBatch_ok hp
  refine eq_none_iff_forall_ne_some.mpr fun old hg => ?_
  cases hc : log.checkpoint with
  | none =>
    rw [(h.fresh hc).2.1] at hg
    cases hg
  | some c =>
    have hl := (h.upto c hc).index _ _ hg
    have hhi := hn c hc
    rw [hh] at hhi
    omega

lemma index_eq_some (h : rebuild H rs = .ok log) {loc : Location} :
    log.index.get height = some loc ↔ ∃ fr b, Stands rs height fr b ∧
      loc = locationOf H fr (.batch b) := by
  induction rs using reverseRecOn generalizing log with
  | nil =>
    cases h
    simp [unread,OrderedMap.get,OrderedMap.empty,OrderedMap.find,Stands]
  | append_singleton rs last ih =>
    obtain ⟨pre,hb,hr⟩ := rebuild_snoc.mp h
    have hf := follows_of_rebuild hb
    obtain ⟨cp,st,ha,rfl⟩ := replay_eq_ok.mp hr
    simp only [stands_snoc]
    cases last with
    | anchor cp' state' => simpa [replayed] using ih hb
    | batch last =>
      rw [applyRecord_batch] at ha
      simp only [replayed,nextLocation_eq hf]
      rw [OrderedMap.get_insert]
      split
      · next heq =>
        constructor
        · intro hlo
          exact ⟨rs,last,.inl ⟨heq.symm,rfl,rfl⟩,(some.inj hlo).symm⟩
        · rintro ⟨fr,b,⟨-,rfl,hl⟩ | hs,rfl⟩
          · cases hl
            rfl
          · have ho := (ih hb).mpr ⟨fr,b,hs,rfl⟩
            rw [heq,hf.index_next ha] at ho
            cases ho
      · next hn =>
        refine (ih hb).trans (exists₂_congr fun fr b => and_congr_left fun _ => ?_)
        refine ⟨.inr,?_⟩
        rintro (⟨hh,-,hl⟩ | hs)
        · cases hl
          exact absurd hh.symm hn
        · exact hs

end Facts
end Astrolune.Storage

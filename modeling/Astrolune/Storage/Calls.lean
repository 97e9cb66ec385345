import Astrolune.Storage.Publish

namespace Astrolune.Storage
open Lib Codec State AppendOnlyStorage

variable {H : Hasher} {T : Turn → Prop} {loss : Loss} {d : LogDisk}
  {log : AppendOnlyStorage} {rs : List Record} {r : Record}

def unrecorded (H : Hasher) (T : Turn → Prop) (loss : Loss)
    (log : AppendOnlyStorage) (records : List Record) (r : Record) (e : StorageError)
    (s : LogState) : Prop :=
  (s.2 = log ∧ Live H loss s.1 log records) ∨
    (CanFail T ∧ e = .durabilityUnknown ∧ s.2 = { log with poisoned := true } ∧
      Calm H loss s.1 (AtMost records r log.retention))

def recording {α : Type} (H : Hasher) (T : Turn → Prop) (loss : Loss)
    (log : AppendOnlyStorage) (records : List Record) (r : Record) :
    Post LogState StorageError α where
  ok _ s := Live H loss s.1 s.2 (records ++ [r]) ∧ s.2.policy = log.policy ∧
    s.2.retention = log.retention
  error := unrecorded H T loss log records r
  stopped s := CanStop T ∧ Calm H loss s.1 (AtMost records r log.retention)

lemma meets_record {α : Type} {Q : Post LogState StorageError α}
    {next : AppendOnlyStorage} {f : Location → LogIo α} (h : Live H loss d log rs)
    (hr : Written H r) (hn : log.replay H r = .ok next)
    (hf : ∀ d', Live H loss d' next (rs ++ [r]) → Meets T (f (log.nextLocation H r)) (d',{ log with
        endOffset := (log.nextLocation H r).endOffset
        tip := (log.nextLocation H r).hash }) Q)
    (he : ∀ e s, unrecorded H T loss log rs r e s → Q.error e s)
    (hst : ∀ s, CanStop T ∧ Calm H loss s.1 (AtMost rs r log.retention) → Q.stopped s) :
    Meets T (append H (payload H r) >>= f) (d,log) Q := by
  refine Meets.bind ((meets_append h hr hn).mono (fun _ _ => id) (fun e s hs => he e s ?_)
    hst) ?_
  · exact hs.imp_left fun hs => ⟨hs.1,h.rebuilt,h.valid,hs.2⟩
  · rintro _ ⟨d',_⟩ ⟨rfl,rfl,hh,hv⟩
    apply hf
    obtain ⟨cp,st,ha,rfl⟩ := replay_eq_ok.mp hn
    exact ⟨rebuild_snoc.mpr ⟨_,h.rebuilt,replay_core hn⟩,hv,hh⟩

lemma meets_installAnchor {cp : Checkpoint} {st : InMemoryState}
    (h : Live H loss d log rs) :
    Meets T (installAnchor H cp st) (d,log) (recording H T loss log rs (.anchor cp st)) := by
  apply meets_ready h.clean
  apply meets_self
  refine meets_give (fun _ hn => ?_) (fun e _ => .inl ⟨rfl,h⟩)
  refine meets_give (fun _ hs => ?_) (fun e _ => .inl ⟨rfl,h⟩)
  refine meets_give (fun bs hb => ?_) (fun e _ => .inl ⟨rfl,h⟩)
  rw [ensure_eq_ok] at hn hs
  have hw : Written H (.anchor cp st) := ⟨hs,bs,hb⟩
  obtain rfl : payload H (.anchor cp st) = bs := payload_of_encode hb
  have ha : applyRecord H (.anchor cp st) log.checkpoint log.state = .ok (cp,st) := by
    rw [Option.isNone_iff_eq_none.mp hn]
    rfl
  refine meets_record h hw (replay_eq_ok.mpr ⟨cp,st,ha,rfl⟩) (fun d' hl => ?_)
    (fun _ _ => id) (fun _ => id)
  apply meets_update
  rw [replayed,if_pos hn] at hl
  exact Meets.pure ⟨hl,rfl,rfl⟩

lemma meets_commit {b : CommitBatch} {Q : Post LogState StorageError Checkpoint}
    (h : Live H loss d log rs)
    (hf : ∀ cp d' next, Live H loss d' next (rs ++ [.batch b]) →
      next.policy = log.policy → next.retention = log.retention →
      Meets T (evaluateRetention H >>= fun _ => pure cp) (d',next) Q)
    (he : ∀ e s, unrecorded H T loss log rs (.batch b) e s → Q.error e s)
    (hst : ∀ s, CanStop T ∧ Calm H loss s.1 (AtMost rs (.batch b) log.retention) → Q.stopped s) :
    Meets T (commit H b) (d,log) Q := by
  apply meets_ready h.clean
  refine meets_give (fun bs hb => ?_) (fun e _ => he e _ (.inl ⟨rfl,h⟩))
  apply meets_self
  refine meets_give ?_ (fun e _ => he e _ (.inl ⟨rfl,h⟩))
  rintro ⟨cp,st⟩ hp
  have hw : Written H (.batch b) := ⟨trivial,bs,hb⟩
  obtain rfl : payload H (.batch b) = bs := payload_of_encode hb
  have hr : log.replay H (.batch b) =
      .ok (log.replayed H (.batch b) (log.nextLocation H (.batch b)) cp st) :=
    replay_eq_ok.mpr ⟨cp,st,applyRecord_batch.trans hp,rfl⟩
  refine meets_record h hw hr (fun d' hl => ?_) he hst
  apply meets_update
  have hs : AppendOnlyStorage.committed H { log with
      endOffset := (log.nextLocation H (.batch b)).endOffset
      tip := (log.nextLocation H (.batch b)).hash } b cp st
      (log.nextLocation H (.batch b)) =
      log.replayed H (.batch b) (log.nextLocation H (.batch b)) cp st := by
    rw [AppendOnlyStorage.committed,(prepareBatch_ok hp).1]
    rfl
  rw [hs]
  exact hf cp d' _ hl rfl rfl

end Astrolune.Storage

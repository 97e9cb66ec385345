import Astrolune.Storage.Calls
import Astrolune.Storage.Resume
import Astrolune.Types.Digest

namespace Astrolune.Storage
open Lib Codec State AppendOnlyStorage List Option

inductive Call where
  | installAnchor (cp : Checkpoint) (state : InMemoryState)
  | commit (b : CommitBatch)
  | prune (before : UInt64)
  | setRetentionPolicy (policy : RetentionPolicy)

def Call.record : Call → Option Record
  | .installAnchor cp state => some (.anchor cp state)
  | .commit b => some (.batch b)
  | .prune _ => none
  | .setRetentionPolicy _ => none

def Call.perform (H : Hasher) : Call → LogIo Unit
  | .installAnchor cp state => do
    let _ ← AppendOnlyStorage.installAnchor H cp state
    return ()
  | .commit b => do
    let _ ← AppendOnlyStorage.commit H b
    return ()
  | .prune before => AppendOnlyStorage.prune H before
  | .setRetentionPolicy policy => AppendOnlyStorage.setRetentionPolicy policy

abbrev Life := List (Call × Ended StorageError Unit)

def acknowledged (life : Life) : List Record := life.filterMap fun
  | (c, .ok _) => c.record
  | _ => none

def unreported (life : Life) : List Record := life.filterMap fun
  | (c, .error .durabilityUnknown) => c.record
  | (c, .stopped) => c.record
  | _ => none

/-- What a process may have published: what it was told, and at most one record more. -/
def MayHold (life : Life) (held : List Record) : Prop :=
  held = acknowledged life ∨ ∃ r ∈ unreported life, held = acknowledged life ++ [r]

structure World where
  disk : LogDisk
  log : Option AppendOnlyStorage
  past : List Life
  life : Life

inductive Step where
  | start (turns : List Turn)
  | call (c : Call) (turns : List Turn)
  | kill
  | powerLoss (mask : List Bool) (left : Nat → Bytes)

def World.opened (d : LogDisk) (log : AppendOnlyStorage) : World := ⟨d, some log, [], []⟩

abbrev World.fresh (H : Hasher) : World := .opened (createdDisk H) (unread H 0 none)

def World.lives (w : World) : List Life := w.past ++ [w.life]

section Step

variable (H : Hasher)

def World.start (w : World) (turns : List Turn) : World :=
  match w.log with
  | some _ => w
  | none =>
    match (openLog H turns w.disk).1 with
    | (.ok log, d) => { disk := d, log := some log, past := w.lives, life := [] }
    | (_, d) => { w with disk := d }

def World.call (w : World) (c : Call) (turns : List Turn) : World :=
  match w.log with
  | none => w
  | some log =>
    let (ended, s) := (c.perform H turns (w.disk, log)).1
    { w with
      disk := s.1
      log := if ended = .stopped then none else some s.2
      life := w.life ++ [(c, ended)] }

def World.step (w : World) : Step → World
  | .start turns => w.start H turns
  | .call c turns => w.call H c turns
  | .kill => { w with log := none }
  | .powerLoss mask left => { w with disk := w.disk.lose mask left, log := none }

def World.run (w : World) (steps : List Step) : World := steps.foldl (World.step H) w

end Step

section Told

variable {life : Life} {c : Call} {o : Ended StorageError Unit}

lemma acknowledged_ok : acknowledged (life ++ [(c,.ok ())]) = acknowledged life ++ c.record.toList := by
  simp only [acknowledged,filterMap_append,filterMap_cons,filterMap_nil]
  cases c.record <;> rfl

lemma acknowledged_of_ne (h : o ≠ .ok ()) :
    acknowledged (life ++ [(c,o)]) = acknowledged life := by
  cases o with
  | ok a => exact absurd rfl h
  | error e => simp [acknowledged]
  | stopped => simp [acknowledged]

lemma unreported_snoc : unreported life ⊆ unreported (life ++ [(c,o)]) := by
  intro r hr
  rw [unreported,filterMap_append]
  exact mem_append_left _ hr

lemma mem_unreported {r : Record} (hc : c.record = some r)
    (ho : o = .stopped ∨ o = .error .durabilityUnknown) : r ∈ unreported (life ++ [(c,o)]) := by
  rw [unreported,filterMap_append]
  refine mem_append_right _ ?_
  rcases ho with rfl | rfl <;> simp [hc]

lemma MayHold.snoc {he : List Record} (h : MayHold life he) (ho : o ≠ .ok ()) :
    MayHold (life ++ [(c,o)]) he := by
  rw [MayHold,acknowledged_of_ne ho]
  exact h.imp_right fun ⟨r,hr,heq⟩ => ⟨r,unreported_snoc hr,heq⟩

end Told

section OneStep

variable {H : Hasher} {T : Turn → Prop} {w : World} {I : World → Prop}
  {ts : List Turn}

variable {log : AppendOnlyStorage} {steps : List Step}

lemma World.call_of {c : Call}
    {Q : Post LogState StorageError Unit} (hl : w.log = some log)
    (ht : ∀ t ∈ ts, T t) (hc : Meets T (c.perform H) (w.disk,log) Q)
    (ho : ∀ s, Q.ok () s → I { w with disk := s.1, log := some s.2, life := w.life ++ [(c,.ok ())] })
    (her : ∀ e s, Q.error e s →
      I { w with disk := s.1, log := some s.2, life := w.life ++ [(c,.error e)] })
    (hs : ∀ s, Q.stopped s → I { w with disk := s.1, log := none, life := w.life ++ [(c,.stopped)] }) :
    I (w.call H c ts) := by
  have he := (hc ts ht).2
  simp only [World.call,hl]
  rcases hr : (c.perform H ts (w.disk,log)).1 with ⟨⟨⟩ | e | _,s⟩
  all_goals rw [hr] at he
  · simpa [hr] using ho s he
  · simpa [hr] using her e s he
  · simpa [hr] using hs s he

lemma World.call_none {c : Call} (hl : w.log = none) : w.call H c ts = w := by
  rw [World.call,hl]

lemma World.start_of {Q : Post LogDisk StorageError AppendOnlyStorage} (hl : w.log = none)
    (ht : ∀ t ∈ ts, T t) (hop : Meets T (openLog H) w.disk Q)
    (ho : ∀ log d, Q.ok log d → I { disk := d, log := some log, past := w.lives, life := [] })
    (her : ∀ e d, Q.error e d → I { w with disk := d })
    (hs : ∀ d, Q.stopped d → I { w with disk := d }) : I (w.start H ts) := by
  have he := (hop ts ht).2
  unfold World.start
  rcases hr : (openLog H ts w.disk).1 with ⟨log | e | _,d⟩
  all_goals
    rw [hr] at he
    simp only [hl]
  · exact ho log d he
  · simpa only [hl] using her e d he
  · simpa only [hl] using hs d he

lemma World.start_some (hl : w.log = some log) : w.start H ts = w := by
  rw [World.start,hl]

lemma World.run_of (hw : I w)
    (hst : ∀ w, I w → ∀ s ∈ steps, I (w.step H s)) : I (w.run H steps) := by
  induction steps generalizing w with
  | nil => exact hw
  | cons s steps ih =>
    apply ih (hst w hw s mem_cons_self)
    intro w hw s hs
    exact hst w hw s (mem_cons_of_mem _ hs)

lemma World.run_along {C : World → Step → Prop} (hw : I w)
    (hs : ∀ fr s back, steps = fr ++ s :: back → C (w.run H fr) s)
    (hst : ∀ w s, I w → C w s → I (w.step H s)) : I (w.run H steps) := by
  induction steps generalizing w with
  | nil => exact hw
  | cons s steps ih =>
    apply ih (hst w s hw (hs [] s steps rfl))
    intro fr s' back heq
    exact hs (s :: fr) s' back (by rw [heq,cons_append])

lemma first_open {d : LogDisk}
    (h : (openLog H ts Disk.empty).1 = (.ok log,d)) :
    log = unread H 0 none ∧ d = createdDisk H := by
  have ho : Leads (fun _ => True) (fun _ => True) (openLog H) _ _ _ := leads_firstOpen
  have he := (ho ts fun _ _ => trivial).2
  rw [h] at he
  exact he

lemma opened_empty : (openLog H [] Disk.empty).1 = (.ok (unread H 0 none),createdDisk H) := by
  have ho : Leads Done (fun _ => True) (openLog H) _ _ _ := leads_firstOpen
  obtain ⟨_,_,heq,rfl,rfl⟩ := ho.returns.ended_ok (forall_mem_nil _)
  exact heq

end OneStep

section Calls

variable {H : Hasher} {T : Turn → Prop} {loss : Loss} {d : LogDisk}
  {log : AppendOnlyStorage} {rs : List Record} {c : Call} {r : Record}

lemma meets_poisoned (h : log.poisoned = true) (hc : c.record = some r) :
    Meets T (c.perform H) (d,log)
      ⟨fun _ _ => False,fun e s => e = .durabilityUnknown ∧ s = (d,log),fun _ => False⟩ := by
  have hr : ∀ {α : Type} (f : Unit → LogIo α), Meets T (ready >>= f) (d,log)
      ⟨fun _ _ => False,fun e s => e = .durabilityUnknown ∧ s = (d,log),fun _ => False⟩ := by
    intro α f
    refine Meets.bind (R := fun _ _ => False) (meets_self (Meets.give (fun _ ho => ?_)
      (fun e he => ?_))) fun _ _ => False.elim
    · rw [ensure_eq_ok,h] at ho
      cases ho
    · rw [h] at he
      cases he
      exact ⟨rfl,rfl⟩
  cases c with
  | installAnchor cp st => exact (hr _).bind fun _ _ => False.elim
  | commit b => exact (hr _).bind fun _ _ => False.elim
  | prune pre => cases hc
  | setRetentionPolicy policy => cases hc

lemma meets_evaluateNothing {α : Type} {a : α} {s : LogState}
    {Q : Post LogState StorageError α} (h : s.2.policy = .disabled)
    (hQ : Q.ok a s) : Meets T (evaluateRetention H >>= fun _ => pure a) s Q := by
  refine Meets.bind (R := fun _ t => t = s) (meets_self ?_) ?_
  · rw [dueFloor,h]
    exact Meets.pure rfl
  · rintro _ _ rfl
    exact Meets.pure hQ

lemma meets_recordOnly (h : Live H loss d log rs) (hpo : log.policy = .disabled)
    (hc : c.record = some r) :
    Meets T (c.perform H) (d,log) (recording H T loss log rs r) := by
  cases c with
  | installAnchor cp st =>
    cases hc
    exact (meets_installAnchor h).bind fun _ _ hs => Meets.pure hs
  | commit b =>
    cases hc
    refine Meets.bind (R := fun _ s => (recording (α := Unit) H T loss log rs (.batch b)).ok
      () s) ?_ fun _ _ hs => Meets.pure hs
    refine meets_commit h (fun cp d' next hl hp hr => ?_) (fun _ _ => id) (fun _ => id)
    exact meets_evaluateNothing (hp.trans hpo) ⟨hl,hp,hr⟩
  | prune pre => cases hc
  | setRetentionPolicy policy => cases hc

end Calls

section Crash

variable {H : Hasher} {w : World} {pre : List Record} {life : Life}

def anyLoss : Loss := ⟨false, true⟩

/-- What is found when the processes before published `before`. -/
def MayFind (before : List Record) (life : Life) (found : List Record)
    (retention : Option RetentionRecord) : Prop :=
  retention = none ∧ ∃ held, MayHold life held ∧ found = before ++ held

def Settled (H : Hasher) (w : World) (before : List Record) : Prop :=
  (∃ log, w.log = some log ∧ log.policy = .disabled ∧ log.retention = none ∧
    Live H anyLoss w.disk log (before ++ acknowledged w.life)) ∨
  ((∀ log ∈ w.log, log.poisoned = true) ∧ Calm H anyLoss w.disk (MayFind before w.life))

lemma Settled.calm (h : Settled H w pre) : Calm H anyLoss w.disk (MayFind pre w.life) := by
  rcases h with ⟨log,-,-,hn,hl⟩ | ⟨-,hc⟩
  · obtain ⟨K,hh⟩ := hl.holds
    exact ⟨K,hh.toPublishedBy.calm ⟨hn,_,.inl rfl,rfl⟩ hl.valid⟩
  · exact hc

lemma MayFind.of_atMost {c : Call} {r : Record} {o : Ended StorageError Unit}
    {fd : List Record} {ret : Option RetentionRecord} (hc : c.record = some r)
    (ho : o = .stopped ∨ o = .error .durabilityUnknown)
    (h : AtMost (pre ++ acknowledged life) r none fd ret) :
    MayFind pre (life ++ [(c,o)]) fd ret := by
  have hn : o ≠ .ok () := by
    rcases ho with rfl | rfl <;> simp
  obtain ⟨rfl | rfl,rfl⟩ := h
  · exact ⟨rfl,_,.inl rfl,by rw [acknowledged_of_ne hn]⟩
  · refine ⟨rfl,_,.inr ⟨r,mem_unreported hc ho,rfl⟩,?_⟩
    rw [acknowledged_of_ne hn,append_assoc]

lemma Settled.call {c : Call} {r : Record} (h : Settled H w pre) (hc : c.record = some r)
    (ts : List Turn) : Settled H (w.call H c ts) pre := by
  have ha : ∀ t ∈ ts, (fun _ => True) t := fun _ _ => trivial
  rcases h with ⟨log,hlo,hpo,hn,hli⟩ | ⟨hp,hca⟩
  · refine World.call_of (I := fun w => Settled H w pre) hlo ha (meets_recordOnly hli hpo hc) ?_ ?_ ?_
    · intro s ⟨hl',hp',hn'⟩
      refine .inl ⟨s.2,rfl,hp'.trans hpo,hn'.trans hn,?_⟩
      rw [acknowledged_ok,hc,← append_assoc]
      exact hl'
    · intro e s hs
      rcases hs with ⟨hsa,hl'⟩ | ⟨-,rfl,hsa,hca⟩
      · refine .inl ⟨s.2,rfl,hsa ▸ hpo,hsa ▸ hn,?_⟩
        rw [acknowledged_of_ne (by simp),hsa]
        exact hl'
      · refine .inr ⟨?_,?_⟩
        · intro l hl
          obtain rfl := some.inj hl
          rw [hsa]
        · rw [hn] at hca
          exact hca.mono fun _ _ => MayFind.of_atMost hc (.inr rfl)
    · intro s ⟨_,hca⟩
      rw [hn] at hca
      exact .inr ⟨by simp,hca.mono fun _ _ => MayFind.of_atMost hc (.inl rfl)⟩
  · cases hlo : w.log with
    | none =>
      rw [World.call_none hlo]
      exact .inr ⟨hp,hca⟩
    | some log =>
      refine World.call_of (I := fun w => Settled H w pre) hlo ha
        (meets_poisoned (hp log hlo) hc) (fun _ => False.elim) ?_ (fun _ => False.elim)
      intro e s ⟨_,hs⟩
      refine .inr ⟨?_,?_⟩
      · intro l hl
        obtain rfl := some.inj hl
        rw [hs]
        exact hp log hlo
      · rw [hs]
        refine hca.mono ?_
        intro fd ret ⟨hr,he,hh,heq⟩
        exact ⟨hr,he,hh.snoc (by simp),heq⟩

def Sane (H : Hasher) (w : World) : Prop :=
  ∃ helds, Forall₂ MayHold w.past helds ∧ Settled H w helds.flatten

lemma Sane.start (h : Sane H w) (ts : List Turn) : Sane H (w.start H ts) := by
  obtain ⟨hel,hp,hs⟩ := h
  cases hlo : w.log with
  | some log =>
    rw [World.start_some hlo]
    exact ⟨hel,hp,hs⟩
  | none =>
    refine World.start_of (I := Sane H) hlo (fun _ _ => trivial)
      (meets_openLog (T := fun _ => True) hs.calm) ?_ ?_ ?_
    · intro log d ⟨rs,⟨hn,he,hh,heq⟩,hl,hpo⟩
      refine ⟨hel ++ [he],?_,.inl ⟨log,rfl,hpo,hn,?_⟩⟩
      · exact rel_append hp (.cons hh .nil)
      · simpa [acknowledged,← heq] using hl
    · intro e d ⟨_,hc⟩
      exact ⟨hel,hp,.inr ⟨by simp [hlo],hc⟩⟩
    · intro d ⟨_,hc⟩
      exact ⟨hel,hp,.inr ⟨by simp [hlo],hc⟩⟩

def Step.RecordsOnly : Step → Prop
  | .call c _ => c.record.isSome
  | _ => True

lemma Sane.step {s : Step} (h : Sane H w) (hs : s.RecordsOnly) :
    Sane H (w.step H s) := by
  cases s with
  | start ts => exact h.start ts
  | call c ts =>
    obtain ⟨he,hp,hse⟩ := h
    obtain ⟨r,hr⟩ := isSome_iff_exists.mp hs
    have hk : (w.call H c ts).past = w.past := by
      rw [World.call]
      split <;> rfl
    exact ⟨he,hk ▸ hp,hse.call hr ts⟩
  | kill =>
    obtain ⟨he,hp,hse⟩ := h
    exact ⟨he,hp,.inr ⟨by simp [World.step],hse.calm⟩⟩
  | powerLoss mask left =>
    obtain ⟨he,hp,hse⟩ := h
    refine ⟨he,hp,.inr ⟨by simp [World.step],hse.calm.lose ?_ ?_⟩⟩
    · intro ho
      cases ho
    · intro ht
      cases ht

lemma sane_opened : Sane H (World.fresh H) :=
  ⟨[],.nil,.inl ⟨_,rfl,rfl,rfl,live_created⟩⟩

lemma batches_of_rebuild {rs : List Record} {log : AppendOnlyStorage}
    (h : rebuild H rs = .ok log) : ∀ r ∈ rs.tail, ∃ b, r = .batch b := by
  induction rs using reverseRecOn generalizing log with
  | nil => simp
  | append_singleton fr last ih =>
    obtain ⟨pre,hb,hre⟩ := rebuild_snoc.mp h
    obtain ⟨cp,st,ha,-⟩ := replay_eq_ok.mp hre
    have hf := follows_of_rebuild hb
    cases fr with
    | nil => simp
    | cons a fr =>
      intro r hr
      rw [cons_append,tail_cons,mem_append,mem_singleton] at hr
      rcases hr with hr | rfl
      · exact ih hb r hr
      · obtain ⟨c,hc⟩ := isSome_iff_exists.mp (hf.started.mpr (cons_ne_nil _ _))
        rw [hc] at ha
        exact batch_of_some ha

/-- Whatever fails and wherever a process stops, what was committed is found again: a log opens
whenever the calls of the opening work, and it holds, process by process, the records that the
process was told are published and at most one more of which it was not told. -/
theorem log_crash_atomic (H : Hasher) (turns : List Turn) (d : LogDisk)
    (log : AppendOnlyStorage) (hfirst : (openLog H turns Disk.empty).1 = (.ok log, d))
    (steps : List Step) (hsteps : ∀ s ∈ steps, s.RecordsOnly) (turns' : List Turn)
    (hturns' : ∀ t ∈ turns', t = .done) :
    ∃ reopened d' records helds,
      (openLog H turns' ((World.opened d log).run H steps).disk).1 = (.ok reopened, d') ∧
      d'.inode reopened.file = ⟨image H records, none⟩ ∧
      rebuild H records = .ok reopened.core ∧
      (∀ r ∈ records.tail, ∃ b, r = .batch b) ∧
      records = helds.flatten ∧
      Forall₂ MayHold ((World.opened d log).run H steps).lives helds := by
  obtain ⟨rfl,rfl⟩ := first_open hfirst
  obtain ⟨helds,hp,hse⟩ : Sane H ((World.fresh H).run H steps) :=
    World.run_of sane_opened fun _ hw s hs => hw.step (hsteps s hs)
  obtain ⟨reopened,d',ho,records,⟨-,he,hh,heq⟩,hl,-⟩ :=
    hse.calm.opens.ended_ok hturns'
  obtain ⟨K,hho⟩ := hl.holds
  refine ⟨reopened,d',records,helds ++ [he],ho,hho.exact,hl.rebuilt,
    batches_of_rebuild hl.rebuilt,?_,rel_append hp (.cons hh .nil)⟩
  simpa using heq

namespace TwoStops

def genesis : Checkpoint := ⟨0, Fixed.fill 32 1, InMemoryState.new.root residueHash⟩

def batch (height : UInt64) (parent : Hash256) : CommitBatch where
  block :=
    { header :=
        { height, parent
          transactionsRoot := merkleRoot residueHash []
          stateRoot := InMemoryState.new.root residueHash
          receiptsRoot := Hash256.zero
          committeeRoot := Hash256.zero
          capacity := ⟨1, 1, 1, 1⟩ }
      transactions := [] }
  finalityCertificate := []
  stateDiffs := []
  effects := none

def first : CommitBatch := batch 1 genesis.block

def second : CommitBatch := batch 2 (first.block.header.computeHash residueHash)

def interrupted : List Turn := replicate 13 .done ++ [.stopped true 0]

def steps : List Step :=
  [.call (.installAnchor genesis InMemoryState.new) [], .call (.commit first) interrupted,
    .start [], .call (.commit second) interrupted]

def world : World :=
  (World.fresh residueHash).run residueHash steps

end TwoStops

/-- No process was told of the batch that it committed, and both are found. -/
theorem log_holds_two_unreported :
    (∀ s ∈ TwoStops.steps, s.RecordsOnly) ∧
      TwoStops.world.lives.map (·.map Prod.snd) = [[.ok (), .stopped], [.stopped]] ∧
      ((TwoStops.world.start residueHash []).log.map blockCount) = some 2 := by
  refine ⟨?_,?_,?_⟩
  · simp [TwoStops.steps,Step.RecordsOnly,Call.record]
  · decide +kernel
  · decide +kernel

/-- The same run, as far as the processes were told of it. -/
theorem log_crash_atomic_two_stops :
    ∃ reopened d' records helds,
      (openLog residueHash [] TwoStops.world.disk).1 = (.ok reopened, d') ∧
      d'.inode reopened.file = ⟨image residueHash records, none⟩ ∧
      rebuild residueHash records = .ok reopened.core ∧
      (∀ r ∈ records.tail, ∃ b, r = .batch b) ∧
      records = helds.flatten ∧ Forall₂ MayHold TwoStops.world.lives helds :=
  log_crash_atomic residueHash [] (createdDisk residueHash) (unread residueHash 0 none)
    opened_empty TwoStops.steps (by simp [TwoStops.steps,Step.RecordsOnly,Call.record]) [] (by simp)

end Crash
end Astrolune.Storage

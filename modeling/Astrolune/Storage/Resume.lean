import Astrolune.Storage.Reopen

namespace Astrolune.Storage
open Lib Codec State AppendOnlyStorage List Function Option

variable {H : Hasher} {loss : Loss} {d d' : LogDisk} {rs : List Record}
  {retention : Option RetentionRecord} {P Q : Finding}

def Opens (H : Hasher) (loss : Loss) (d : LogDisk)
    (P : Finding) : Prop :=
  Meets Done (openLog H) d (.returns fun log d' => ∃ records, P records log.retention ∧
    Live H loss d' log records ∧ log.policy = .disabled)

/-- The same names outside of `names`, and the same files. -/
structure Renamed (names : LogFile → Prop) (d d' : LogDisk) : Prop where
  entry : ∀ n, ¬names n → d'.entry n = d.entry n
  inode : ∀ i, d'.inode i = d.inode i

variable {n : LogFile} {file head : Nat}

lemma meets_cleared : Meets Done (removeAbsentOk n) d
      (.returns fun _ d' => d'.entry n = none ∧ Renamed (· = n) d d') := by
  refine meets_removeAbsentOk (fun hn => ⟨hn,fun _ _ => rfl,fun _ => rfl⟩)
    ⟨by simp,fun m hm => ?_,fun _ => rfl⟩ (fun hf => absurd hf not_canFail)
    (fun hs => absurd hs not_canStop)
  rw [Disk.entry_unlink,update_of_ne hm]

lemma meets_discard (hm : NoMarker d) :
    Meets Done (finishCompaction H) d (.returns fun _ d' => d'.entry .swap = none ∧
      Renamed (fun n => n = .compact ∨ n = .swap ∨ n = .retainPending) d d') := by
  refine Meets.bind ((meets_readMarker hm).mono (fun _ _ => id) (fun _ _ => id)
    (fun _ hs => not_canStop hs.1)) ?_
  rintro x _ ⟨rfl,e,rfl⟩
  refine meets_cleared.bind fun _ d1 ⟨_,h1⟩ => ?_
  refine meets_cleared.bind fun _ d2 ⟨hsw,h2⟩ => ?_
  refine meets_cleared.mono ?_ (fun _ _ => id) (fun _ => id)
  intro _ d3 ⟨_,h3⟩
  refine ⟨(h3.entry .swap (by decide)).trans hsw,fun n hn => ?_,fun i => ?_⟩
  · simp only [not_or] at hn
    rw [h3.entry n hn.2.2,h2.entry n hn.2.1,h1.entry n hn.1]
  · rw [h3.inode,h2.inode,h1.inode]

lemma Calm.opens (h : Calm H loss d P) : Opens H loss d P :=
  (meets_openLog h).mono (fun _ _ => id) (fun _ _ hf => not_canFail hf.1) (fun _ hs => not_canStop hs.1)

lemma leads_present {J : LogDisk → Prop} :
    Leads Done J (present n) d (d.entry n).isSome d := by
  refine Meets.attemptThen (fun _ t => t = d ∧ (d.entry n).isSome = true)
    (fun _ t => t = d ∧ (d.entry n).isSome = false) ?_ ?_ ?_
  · exact Disk.meets_metadata (fun i hi => ⟨rfl,by rw [hi]; rfl⟩) (fun hn => ⟨rfl,by rw [hn]; rfl⟩)
      (fun hf => absurd hf not_canFail) (fun hs => absurd hs not_canStop)
  · rintro _ _ ⟨rfl,hx⟩
    rw [hx]
    exact Leads.pure _ _
  · rintro _ _ ⟨rfl,hx⟩
    rw [hx]
    exact Leads.pure _ _

lemma meets_renameIf {a b : LogFile} {i : Nat} (hne : a ≠ b)
    (h : d.entry a = some i ∨ d.entry a = none ∧ d.entry b = some i) :
    Meets Done (renameIf (d.entry a).isSome a b) d (.returns fun _ d' => d'.entry b = some i ∧
      d'.entry a = none ∧ Renamed (fun n => n = a ∨ n = b) d d') := by
  rcases h with ha | ⟨ha,hb⟩
  · rw [ha,isSome_some,renameIf,if_pos rfl]
    apply Meets.failingAs
    refine Disk.meets_rename ha ⟨?_,?_,fun n hn => ?_,fun _ => rfl⟩
      (fun hf => absurd hf not_canFail) (fun hs => absurd hs not_canStop)
    · rw [Disk.entry_move,update_of_ne (Ne.symm hne),update_self,ha]
    · rw [Disk.entry_move,update_self]
    · rw [not_or] at hn
      rw [Disk.entry_move,update_of_ne hn.1,update_of_ne hn.2]
  · rw [ha]
    exact Meets.pure ⟨hb,ha,fun _ _ => rfl,fun _ => rfl⟩

/-- The marker names the file of the complete replacement. -/
structure Swapping (H : Hasher) (d : LogDisk) (records : List Record)
    (record : RetentionRecord) (file marker retained : Nat) : Prop where
  swap : d.entry .swap = some marker
  published : (d.inode marker).content = headOf H records
  apart : marker ≠ file
  log : d.entry .compact = some file ∨ d.entry .compact = none ∧ d.entry .log = some file
  starts : image H records <+: (d.inode file).content
  retain : d.entry .retainPending = some retained ∨
    d.entry .retainPending = none ∧ d.entry .retain = some retained
  kept : d.inode retained = ⟨record.toBytes H, none⟩

lemma Swapping.complete {rec : RetentionRecord} {marker retained : Nat}
    (h : Swapping H d rs rec file marker retained)
    (hw : ∀ r ∈ rs, Written H r) (hf : (image H rs).length < 2 ^ 64) :
    Meets Done (finishCompaction H) d (.returns fun _ d' => d'.entry .swap = none ∧
      Found H d' file marker rs ∧ d'.entry .retain = some retained ∧
      d'.inode retained = ⟨rec.toBytes H,none⟩) := by
  have hr : Leads Done (fun _ => True) (readHeadAt H .swap) d _ d :=
    leads_readHeadAt h.swap h.published hf trivial
  refine Meets.bind (R := fun x t => x = .ok ((image H rs).length,tipOf H rs) ∧
    d = t) (Meets.attempt (hr.returns.mono (fun _ _ hx => ⟨by rw [hx.1],hx.2.symm⟩) (fun _ _ => False.elim)
      (fun _ => id))) ?_
  rintro _ _ ⟨rfl,rfl⟩
  dsimp only
  have hp : Leads Done (fun _ => True) (present .compact) d _ d := leads_present
  refine hp.thenReturns ?_
  have hs : d.entry (if (d.entry .compact).isSome = true then .compact else .log) = some file := by
    rcases h.log with hl | ⟨hn,hl⟩
    · rw [hl,isSome_some,if_pos rfl,hl]
    · rw [hn,isSome_none,if_neg Bool.false_ne_true,hl]
  have hv : Leads Done (fun _ => True) (verifyFrames H _ _ _) d () d :=
    leads_verifyFrames hs hw h.starts trivial
  refine hv.thenReturns ?_
  refine (meets_renameIf (by decide) h.log).bind fun _ d1 ⟨hl,_,h1⟩ => ?_
  have hpresent1 : Leads Done (fun _ => True) (present .retainPending) d1 _ d1 := leads_present
  refine hpresent1.thenReturns ?_
  have hre : d1.entry .retainPending = some retained ∨
      d1.entry .retainPending = none ∧ d1.entry .retain = some retained := by
    rw [h1.entry .retainPending (by decide),h1.entry .retain (by decide)]
    exact h.retain
  refine (meets_renameIf (by decide) hre).bind fun _ d2 ⟨hk,_,h2⟩ => ?_
  have hsw : d2.entry .swap = some marker := by
    rw [h2.entry .swap (by decide),h1.entry .swap (by decide),h.swap]
  have hm := (Disk.leads_rename (T := Done) (J := fun _ => True) (b := .head) hsw trivial
    trivial).failingAs StorageError.io
  refine hm.thenReturns ?_
  have hsy := (Disk.leads_syncDir (T := Done) (J := fun _ => True) (d := d2.move .swap .head) trivial
    trivial).failingAs StorageError.io
  refine hsy.returns.mono ?_ (fun _ _ => id) (fun _ => id)
  rintro _ _ ⟨-,rfl⟩
  have hi : ∀ i, (d2.move .swap .head).settle.inode i = d.inode i := by
    intro i
    rw [Disk.inode_settle,Disk.inode_move,h2.inode,h1.inode]
  refine ⟨by simp,⟨?_,?_,h.apart,?_,?_⟩,?_,?_⟩
  · simpa [h2.entry .log (by decide)] using hl
  · simpa using hsw
  · rw [hi]
    exact h.starts
  · rw [hi]
    exact h.published
  · simpa using hk
  · rw [hi]
    exact h.kept

lemma Found.honors (hf : Found H d file head rs) :
    (trimmed d file head (image H rs).length).Honors (update (update
      (fun _ => .free) file (.front (image H rs))) head (.exact (headOf H rs))) := by
  obtain ⟨hl,hh⟩ := hf.inode_trimmed
  have hlt : file < (trimmed d file head (image H rs).length).inodes.length := by
    simpa [trimmed] using d.entry_lt _ _ hf.logEntry
  have hhl : head < (trimmed d file head (image H rs).length).inodes.length := by
    simpa [trimmed] using d.entry_lt _ _ hf.headEntry
  have hfr : (trimmed d file head (image H rs).length).Honors fun _ => .free :=
    ⟨fun _ => trivial,fun _ _ => rfl⟩
  refine (hfr.update hlt ?_).update hhl hh
  rw [hl]
  exact Inode.keeps_self _

lemma Found.holds (hf : Found H d file head rs)
    (hk : Kept H d retention) (ha : ∀ j, d.entry .retain = some j → j ≠ file)
    (hsw : d.entry .swap = none) :
    Holds H loss (trimmed d file head (image H rs).length) file rs retention := by
  have hfr : Untorn loss fun _ => .free := by simp [Untorn]
  have hun := (hfr.update (i := file) (p := .front (image H rs)) (by simp)).update
    (i := head) (p := .exact (headOf H rs)) (by simp)
  have hu : ∀ K : Pledges, Unmarked K d.entry := fun K s hs => nomatch hsw.symm.trans hs
  cases retention with
  | none =>
    refine ⟨_,⟨⟨hf.honors,hun,?_,fun v hv => ?_⟩,hf.inode_trimmed.1⟩⟩
    · rw [update_of_ne (Ne.symm hf.apart),update_self]
    · obtain rfl := Disk.MayShow.settle hv
      refine ⟨hf.logEntry,⟨⟨file,_,hf.logEntry,?_,prefix_refl _⟩,
        ⟨head,hf.headEntry,update_self _ _ _⟩,hk⟩,hu _⟩
      rw [update_of_ne (Ne.symm hf.apart),update_self]
  | some rec =>
    obtain ⟨j,hj,hn⟩ := hk
    have hjf : j ≠ file := ha j hj
    have hjh : j ≠ head := by
      intro heq
      have hp := hf.published
      rw [← heq,hn] at hp
      have hl := congrArg length hp
      rw [RetentionRecord.length_toBytes,headOf,length_headBytes] at hl
      cases hl
    have hjn : (trimmed d file head (image H rs).length).inode j = ⟨rec.toBytes H,none⟩ := by
      change Disk.inode (Disk.alter _ _ _) j = _
      rw [Disk.inode_alter_ne _ _ hjh,Disk.inode_alter_ne _ _ hjf,Disk.inode_alter_ne _ _ hjf,hn]
    have hjl : j < (trimmed d file head (image H rs).length).inodes.length := by
      simpa [trimmed] using d.entry_lt _ _ hj
    refine ⟨_,⟨⟨hf.honors.update hjl (p := .exact (rec.toBytes H)) hjn,
      hun.update (by simp),?_,fun v hv => ?_⟩,hf.inode_trimmed.1⟩⟩
    · rw [update_of_ne (Ne.symm hjf),update_of_ne (Ne.symm hf.apart),update_self]
    · obtain rfl := Disk.MayShow.settle hv
      refine ⟨hf.logEntry,⟨⟨file,_,hf.logEntry,?_,prefix_refl _⟩,
        ⟨head,hf.headEntry,?_⟩,j,hj,update_self _ _ _⟩,hu _⟩
      · rw [update_of_ne (Ne.symm hjf),update_of_ne (Ne.symm hf.apart),update_self]
      · rw [update_of_ne (Ne.symm hjh),update_self]

variable (loss) in
lemma meets_openFound (hv : Valid H rs retention)
    (hf : Found H d file head rs) (hk : Kept H d retention)
    (ha : ∀ j, d.entry .retain = some j → j ≠ file) (hs : d.entry .swap = none) :
    Meets Done (do
      let retention ← readRetention H
      match ← Io.attempt (Disk.openFile .log) with
      | .ok file => openExisting H file retention
      | .error .notFound => openNew H retention
      | .error _ => Io.fail .io) d (.returns fun log d' => log.retention = retention ∧
        Live H loss d' log rs ∧ log.policy = .disabled) := by
  obtain ⟨log,hl,-⟩ := hv.rebuilt
  have hc := core_of_rebuild hl
  have ho := leads_openFound (T := Done) (J := fun _ => True) hv hl hf hk
    ⟨trivial,trivial,trivial,trivial,trivial⟩
  refine ho.returns.mono ?_ (fun _ _ => id) (fun _ => id)
  rintro _ _ ⟨rfl,rfl⟩
  refine ⟨rfl,⟨?_,hv,hf.holds hk ha hs⟩,congrArg AppendOnlyStorage.policy hc.symm⟩
  rw [hl,← hc]
  rfl

/-- The files from which opening gets the log of these records. -/
inductive Ready (H : Hasher) (d : LogDisk) (records : List Record) :
    Option RetentionRecord → Prop where
  | plain {retention : Option RetentionRecord} {file head : Nat} (marker : NoMarker d)
      (found : Found H d file head records) (kept : Kept H d retention)
      (apart : ∀ j, d.entry .retain = some j → j ≠ file) : Ready H d records retention
  | swapping {record : RetentionRecord} {file marker retained : Nat}
      (swapping : Swapping H d records record file marker retained) (apart : retained ≠ file) :
      Ready H d records (some record)

lemma Ready.opens (h : Ready H d rs retention) (hv : Valid H rs retention)
    (hP : P rs retention) : Opens H loss d P := by
  cases h with
  | @plain _ file head marker fd kept apart =>
    refine (meets_discard marker).bind fun _ d1 ⟨hs,h1⟩ => ?_
    have hr := h1.entry .retain (by decide)
    have hf : Found H d1 file head rs := by
      refine ⟨(h1.entry .log (by decide)).trans fd.logEntry,
        (h1.entry .head (by decide)).trans fd.headEntry,fd.apart,?_,?_⟩
      · rw [h1.inode]
        exact fd.starts
      · rw [h1.inode]
        exact fd.published
    have hk : Kept H d1 retention := by
      cases retention with
      | none => exact hr.trans kept
      | some rec =>
        obtain ⟨j,hj,hn⟩ := kept
        exact ⟨j,hr.trans hj,(h1.inode j).trans hn⟩
    refine Meets.mono (meets_openFound loss hv hf hk (fun j hj => apart j (hr ▸ hj)) hs)
      ?_ (fun _ _ => False.elim) (fun _ => False.elim)
    rintro log d' ⟨rfl,hl⟩
    exact ⟨rs,hP,hl⟩
  | @swapping rec file marker retained swapping apart =>
    refine (swapping.complete hv.written hv.fits).bind ?_
    intro _ d1 ⟨hs,hf,hr,hn⟩
    refine Meets.mono (meets_openFound loss hv hf ⟨retained,hr,hn⟩ ?_ hs) ?_
      (fun _ _ => False.elim) (fun _ => False.elim)
    · intro j hj
      rw [hr] at hj
      exact some.inj hj ▸ apart
    · rintro log d' ⟨heq,hl⟩
      exact ⟨rs,heq ▸ hP,hl⟩

def Safe (H : Hasher) (loss : Loss) (d : LogDisk)
    (P : Finding) : Prop :=
  Opens H loss d P ∧ ∀ mask left, Allowed loss.ordered mask →
    (loss.torn = false → ∀ i, (d.inode i).Partial (left i)) → Opens H loss (d.lose mask left) P

lemma Safe.lose {mask : List Bool} {left : Nat → Bytes} (h : Safe H loss d P)
    (hm : Allowed loss.ordered mask)
    (hl : loss.torn = false → ∀ i, (d.inode i).Partial (left i)) :
    Safe H loss (d.lose mask left) P := by
  refine ⟨h.2 mask left hm hl,fun mask' left' _ _ => ?_⟩
  rw [Disk.lose_lose]
  exact h.2 mask left hm hl

lemma Opens.mono (h : Opens H loss d P) (hPQ : ∀ r ret, P r ret → Q r ret) :
    Opens H loss d Q := by
  refine Meets.mono h ?_ (fun _ _ => id) (fun _ => id)
  intro log d' ⟨rs,hP,hl⟩
  exact ⟨rs,hPQ _ _ hP,hl⟩

lemma Safe.mono (h : Safe H loss d P) (hPQ : ∀ r ret, P r ret → Q r ret) : Safe H loss d Q :=
  ⟨h.1.mono hPQ,fun mask left hm hl => (h.2 mask left hm hl).mono hPQ⟩

/-- The names that a complete replacement has until it is swapped in. -/
structure Staged (H : Hasher) (K : Pledges) (v : Directory LogFile)
    (records : List Record) (record : RetentionRecord) (marker : Nat) : Prop where
  swap : v .swap = some marker
  log : ∃ file, (v .compact = some file ∨ v .compact = none ∧ v .log = some file) ∧
    K file = .front (image H records)
  retain : ∃ j, (v .retainPending = some j ∨ v .retainPending = none ∧ v .retain = some j) ∧
    K j = .exact (record.toBytes H)

/-- What is seen in a directory is a log that satisfies `P`, by itself or once a swap is completed. -/
inductive Covered (H : Hasher) (K : Pledges) (v : Directory LogFile)
    (P : Finding) : Prop where
  | plain {records : List Record} {retention : Option RetentionRecord} (hP : P records retention)
      (valid : Valid H records retention) (plain : Plain H K v records retention)
      (unmarked : Unmarked K v)
  | swapping {records : List Record} {record : RetentionRecord} {marker : Nat}
      (hP : P records (some record)) (valid : Valid H records (some record))
      (staged : Staged H K v records record marker)
      (complete : K marker = .exact (headOf H records))
  | undecided {old records : List Record} {retention : Option RetentionRecord}
      {record : RetentionRecord} {marker : Nat} (hold : P old retention)
      (oldValid : Valid H old retention) (plain : Plain H K v old retention)
      (hP : P records (some record)) (valid : Valid H records (some record))
      (staged : Staged H K v records record marker)
      (part : K marker = .part (headOf H records))

section Covered

variable {K : Pledges}

lemma Plain.ready (h : Plain H K d.entry rs retention) (hd : d.Honors K)
    (hm : NoMarker d) : Ready H d rs retention := by
  obtain ⟨file,bs,hf,hfr,hl⟩ := h.log
  obtain ⟨head,hh,he⟩ := h.head
  have hke := hd.kept file
  rw [hfr] at hke
  have hn := hd.kept head
  rw [he] at hn
  refine .plain hm ⟨hf,hh,?_,hl.trans hke.starts,congrArg Inode.content hn⟩ (h.retain.kept hd) ?_
  · intro heq
    rw [heq,hfr] at he
    cases he
  · intro j hj heq
    have hr := h.retain
    cases retention with
    | none => exact nomatch hr.symm.trans hj
    | some rec =>
      obtain ⟨k,hk,hK⟩ := hr
      rw [← some.inj (hj.symm.trans hk),heq,hfr] at hK
      cases hK

lemma Staged.ready {rec : RetentionRecord} {marker : Nat}
    (h : Staged H K d.entry rs rec marker) (hd : d.Honors K)
    (hm : ∀ bs, K marker ≠ .front bs)
    (hp : (d.inode marker).content = headOf H rs) :
    Ready H d rs (some rec) := by
  obtain ⟨file,hf,hfr⟩ := h.log
  obtain ⟨j,hj,he⟩ := h.retain
  have hk := hd.kept file
  rw [hfr] at hk
  have hn := hd.kept j
  rw [he] at hn
  refine .swapping ⟨h.swap,hp,?_,hf,hk.starts,hj,hn⟩ ?_
  · intro heq
    exact hm _ (heq ▸ hfr)
  · intro heq
    rw [heq,hfr] at he
    cases he

lemma Covered.ready (h : Covered H K d.entry P) (hd : d.Honors K) :
    ∃ rs retention, P rs retention ∧ Valid H rs retention ∧ Ready H d rs retention := by
  cases h with
  | plain hP valid plain unmarked =>
    exact ⟨_,_,hP,valid,plain.ready hd (unmarked.noMarker hd)⟩
  | @swapping rs rec marker hP valid staged complete =>
    have hn := hd.kept marker
    rw [complete] at hn
    exact ⟨_,_,hP,valid,staged.ready hd (by simp [complete]) (congrArg Inode.content hn)⟩
  | @undecided old rs retention rec marker ho oldValid plain hP valid staged part =>
    have hn := hd.kept marker
    rw [part] at hn
    by_cases hl : (d.inode marker).content.length < headBytesLength
    · refine ⟨_,_,ho,oldValid,plain.ready hd fun s hs => ?_⟩
      rw [← some.inj (staged.swap.symm.trans hs)]
      exact hl
    · refine ⟨_,_,hP,valid,staged.ready hd (by simp [part]) (IsPrefix.eq_of_length_le hn ?_)⟩
      rw [headOf,length_headBytes]
      omega

/-- Whatever of the last updates a power loss undoes, opening gets a log that satisfies `P`. -/
structure SafeBy (H : Hasher) (loss : Loss) (d : LogDisk) (K : Pledges)
    (P : Finding) : Prop where
  honors : d.Honors K
  untorn : Untorn loss K
  views : ∀ v, d.MayShow loss.ordered v → Covered H K v P

lemma SafeBy.safe (h : SafeBy H loss d K P) : Safe H loss d P := by
  refine ⟨?_,fun mask left hm hl => ?_⟩
  · obtain ⟨rs,retention,hP,hv,hr⟩ := (h.views _ (Disk.mayShow_entry _ _)).ready h.honors
    exact hr.opens hv hP
  · have hh : (d.lose mask left).Honors K := by
      refine h.honors.lose mask fun i bs hp => hl ?_ i
      cases ht : loss.torn with
      | false => rfl
      | true => exact absurd hp (h.untorn ht i bs)
    have hvi : Covered H K (d.lose mask left).entry P := by
      rw [Disk.entry_lose]
      exact h.views _ ⟨mask,hm,rfl⟩
    obtain ⟨rs,retention,hP,hv,hr⟩ := hvi.ready hh
    exact hr.opens hv hP

lemma CalmBy.safeBy (h : CalmBy H loss d K P) : SafeBy H loss d K P := by
  refine ⟨h.honors,h.untorn,fun v hv => ?_⟩
  obtain ⟨hu,rs,retention,hP,hva,hp⟩ := h.views v hv
  exact .plain hP hva hp hu

end Covered
end Astrolune.Storage

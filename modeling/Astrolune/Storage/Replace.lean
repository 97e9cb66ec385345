import Astrolune.Storage.Publish
import Astrolune.Storage.Shorten

namespace Astrolune.Storage
open Lib Codec State AppendOnlyStorage List

variable {H : Hasher} {T : Turn → Prop} {ord : Bool} {d0 d : LogDisk}

/-- Whatever happens to the file `i`, `J` holds. -/
def Own (J : LogDisk → Prop) (d : LogDisk) (i : Nat) : Prop :=
  i < d.inodes.length ∧ ∀ f, J (d.alter i f)

variable {J : LogDisk → Prop} {i : Nat} {rs : List Record} {log : AppendOnlyStorage}
  {cp : Checkpoint} {st : InMemoryState}

lemma Own.alter (h : Own J d i) (f : Inode → Inode) : Own J (d.alter i f) i := by
  refine ⟨by simpa using h.1,fun g => ?_⟩
  rw [Disk.alter_alter]
  exact h.2 _

lemma leads_writeEnd (h : Own J d i) (off : Nat) (bs : Bytes)
    (ho : off = (d.inode i).content.length) :
    ∃ d', Leads T J (Io.failingAs .io (Disk.writeAt i off bs) : DiskIo Unit) d () d' ∧
      Own J d' i ∧ J d' ∧ d'.entry = d.entry ∧
      (d'.inode i).content = (d.inode i).content ++ bs := by
  refine ⟨_,(Disk.leads_writeAt fun k => h.2 _).failingAs _,h.alter _,h.2 _,rfl,?_⟩
  rw [Disk.inode_alter _ _ h.1,ho]
  exact overwrite_end _ _

lemma leads_writeFrame {off : Nat} (h : Own J d i) (bs : Bytes) (tip : Hash256)
    (ho : off = (d.inode i).content.length) :
    ∃ d', Leads T J (writeFrame i off bs (frameHash H tip bs)) d () d' ∧
      Own J d' i ∧ J d' ∧ d'.entry = d.entry ∧
      (d'.inode i).content = (d.inode i).content ++ frame H tip bs := by
  obtain ⟨d1,hlead1,hown1,-,hentry1,hc1⟩ := leads_writeEnd (T := T) h off (leBytes 8 bs.length) ho
  obtain ⟨d2,hlead2,hown2,-,hentry2,hc2⟩ :=
    leads_writeEnd (T := T) hown1 (off + 8) bs (by simp [hc1,ho])
  obtain ⟨d3,hlead3,hown3,hJ,hentry3,hc3⟩ :=
    leads_writeEnd (T := T) hown2 (off + 8 + bs.length) (frameHash H tip bs).1
      (by simp [hc2,hc1,ho,Nat.add_assoc])
  refine ⟨d3,hlead1.bind (hlead2.bind hlead3),hown3,hJ,?_,?_⟩
  · rw [hentry3,hentry2,hentry1]
  · rw [hc3,hc2,hc1,frame]
    simp only [append_assoc]

/-- A replacement that has these records so far. Nothing happened but to files that the log does
not depend on. -/
structure Building (H : Hasher) (ordered : Bool) (d0 d : LogDisk) (r : Replacement)
    (written : List Record) : Prop where
  within : Disk.Within ordered Scratch d0 d
  entry : d.entry .compact = some r.file
  fresh : d0.inodes.length ≤ r.file
  content : (d.inode r.file).content = image H written
  fits : (image H written).length < 2 ^ 64
  counted : ∃ short, rebuild H written = .ok short ∧ r.endOffset = short.endOffset ∧
    r.tip = short.tip ∧ r.index = short.index

section Building

variable {r : Replacement} {written : List Record} {x : Record}

lemma Building.own (h : Building H ord d0 d r written) :
    Own (fun t => Disk.Within ord Scratch d0 t) d r.file :=
  ⟨d.entry_lt _ _ h.entry,fun _ => h.within.alter h.fresh⟩

lemma Building.position (h : Building H ord d0 d r written) :
    r.endOffset = (image H written).length ∧ r.tip = tipOf H written := by
  obtain ⟨short,hs,he,ht,-⟩ := h.counted
  have hf := follows_of_rebuild hs
  exact ⟨he.trans hf.endOffset,ht.trans hf.tip⟩

variable {budget : Nat} {next : AppendOnlyStorage}

/-- One more frame. Its index is the one that replaying the records gives. -/
lemma meets_appendFrame (h : Building H ord d0 d r written)
    (hne : rebuild H (written ++ [x]) = .ok next) :
    Meets T (appendFrame H r.file r.endOffset r.tip (payload H x) budget) d
      ⟨fun p d' => p = ((image H (written ++ [x])).length,tipOf H (written ++ [x])) ∧
          Building H ord d0 d' ⟨r.file,p.1,p.2,next.index⟩ (written ++ [x]),
        fun _ d' => Disk.Within ord Scratch d0 d',
        fun d' => CanStop T ∧ Disk.Within ord Scratch d0 d'⟩ := by
  obtain ⟨he,ht⟩ := h.position
  have hfo := follows_of_rebuild hne
  refine Meets.bind (R := fun n t => d = t ∧ n = (image H (written ++ [x])).length ∧ n < 2 ^ 64)
    (Meets.give (fun n hn => ?_) (fun _ _ => h.within)) ?_
  · simp only [okOr_eq_ok,checkedAdd64_eq_some] at hn
    refine ⟨rfl,?_,hn.2⟩
    rw [hn.1,length_image_snoc,he,Nat.add_comm frameOverhead]
  · rintro _ _ ⟨rfl,rfl,hf⟩
    refine Meets.bind (R := fun _ t => d = t) (Meets.give (fun _ _ => rfl) (fun _ _ => h.within)) ?_
    rintro _ _ rfl
    obtain ⟨d',hwr,-,hwi,hen,hc⟩ := leads_writeFrame (T := T) h.own
      (payload H x) r.tip (he.trans (by rw [h.content]))
    refine hwr.andThen (Meets.pure ⟨?_,?_⟩) (fun _ _ _ => id) (fun _ hs hw => ⟨hs,hw⟩)
    · rw [ht,tipOf_snoc]
    · refine ⟨hwi,hen ▸ h.entry,h.fresh,?_,hf,next,hne,?_,?_,rfl⟩
      · rw [hc,h.content,image_snoc,ht]
      · exact hfo.endOffset.symm
      · rw [hfo.tip,ht,tipOf_snoc]

lemma meets_createReplacement {α : Type} {Q : Post LogDisk StorageError α} {f : Nat → DiskIo α}
    (h : Disk.Within ord Scratch d0 d)
    (hf : ∀ d' i, Building H ord d0 d' ⟨i,headerSize,initialTip H,.empty⟩ [] → Meets T (f i) d' Q)
    (he : ∀ e d', Disk.Within ord Scratch d0 d' → Q.error e d')
    (hst : ∀ d', CanStop T ∧ Disk.Within ord Scratch d0 d' → Q.stopped d') :
    Meets T (do
      let i ← Io.failingAs .io (Disk.create .compact)
      writeHeader H i
      f i) d Q := by
  have hl := h.link (n := .compact) (.inr (.inl rfl))
  refine Meets.bind (R := fun i t => t = d.link .compact ∧ i = d.inodes.length) (Meets.failingAs ?_) ?_
  · exact Disk.meets_create (fun _ => ⟨rfl,rfl⟩) (fun _ _ => he _ _ h)
      (fun hf => ⟨he _ _ h,fun _ => he _ _ hl⟩)
      (fun hs => ⟨hst _ ⟨hs,h⟩,fun _ => hst _ ⟨hs,hl⟩⟩)
  rintro _ _ ⟨rfl,rfl⟩
  have ho : Own (fun t => Disk.Within ord Scratch d0 t) (d.link .compact) d.inodes.length :=
    ⟨by simp,fun _ => hl.alter h.size⟩
  obtain ⟨d1,hlead1,hown1,-,hentry1,hc1⟩ :=
    leads_writeEnd (T := T) ho 0 logMagic (by simp [Inode.fresh])
  obtain ⟨d2,hlead2,hown2,hwi,hentry2,hc2⟩ :=
    leads_writeEnd (T := T) hown1 8 (initialTip H).1 (by simp [hc1,Inode.fresh]; decide)
  refine (hlead1.bind hlead2).andThen (hf d2 _ ?_) (fun e t _ hw => he e t hw)
    (fun t hs hw => hst t ⟨hs,hw⟩)
  refine ⟨hwi,?_,h.size,?_,?_,_,rfl,rfl,rfl,rfl⟩
  · simp [hentry2,hentry1]
  · rw [hc2,hc1,image,framesFrom,append_nil,header]
    simp [Inode.fresh]
  · rw [length_image_nil]
    decide

lemma Building.sync (h : Building H ord d0 d r written) :
    Building H ord d0 (d.alter r.file (·.sync)) r written := by
  refine ⟨h.own.2 _,h.entry,h.fresh,?_,h.fits,h.counted⟩
  rw [Disk.inode_alter _ _ h.own.1]
  exact h.content

lemma Building.settle (h : Building H ord d0 d r written) :
    Building H ord d0 d.settle r written :=
  ⟨h.within.settle,h.entry,h.fresh,h.content,h.fits,h.counted⟩

lemma Building.index_next {b : CommitBatch}
    (h : Building H ord d0 d r written)
    (hn : rebuild H (written ++ [.batch b]) = .ok next) :
    r.index.insert b.block.header.height.toNat ⟨r.endOffset,
      (image H (written ++ [.batch b])).length,r.tip,tipOf H (written ++ [.batch b])⟩ =
      next.index := by
  obtain ⟨he,ht⟩ := h.position
  obtain ⟨short,hs,-,-,hi⟩ := h.counted
  obtain ⟨pre,hb,hr⟩ := rebuild_snoc.mp hn
  rw [hs] at hb
  cases hb
  obtain ⟨cp,st,-,rfl⟩ := replay_eq_ok.mp hr
  simp only [replayed,nextLocation_eq (follows_of_rebuild hs),locationOf,hi,he,ht]

lemma meets_copyFrames {log : AppendOnlyStorage} {rs fr : List Record}
    {todo : List CommitBatch} {source : Nat} (hlo : rebuild H rs = .ok log.core)
    (hwr : ∀ x ∈ rs, Written H x) (hlt : source < d0.inodes.length)
    (hso : image H rs <+: (d0.inode source).content)
    (hre : rs = fr ++ todo.map .batch)
    (hsh : ∃ short, rebuild H (written ++ todo.map .batch) = .ok short)
    (h : Building H ord d0 d r written) :
    Meets T (copyFrames H log source budget (todo.map (·.block.header.height.toNat)) r) d
      ⟨fun r' d' => r'.file = r.file ∧ Building H ord d0 d' r' (written ++ todo.map .batch),
        fun _ d' => Disk.Within ord Scratch d0 d',
        fun d' => CanStop T ∧ Disk.Within ord Scratch d0 d'⟩ := by
  induction todo generalizing fr d r written with
  | nil =>
    exact Meets.pure ⟨rfl,by simpa using h⟩
  | cons b todo ih =>
    have hsp : ∀ l : List Record, l ++ (b :: todo).map .batch =
        l ++ [.batch b] ++ todo.map .batch := by simp
    rw [hsp] at hsh ⊢
    have hl : log.index.get b.block.header.height.toNat = some (locationOf H fr (.batch b)) :=
      (index_eq_some hlo).mpr ⟨fr,b,⟨rfl,todo.map .batch,by simp [hre]⟩,rfl⟩
    have hb : Written H (.batch b) := hwr _ (by simp [hre])
    have hf : image H (fr ++ [.batch b]) <+: (d.inode source).content := by
      rw [h.within.inode source hlt]
      refine IsPrefix.trans ?_ hso
      rw [hre,hsp]
      exact image_append _ _
    have hg : Io.give (okOr StorageError.corrupt (log.index.get b.block.header.height.toNat)) =
        (pure (locationOf H fr (.batch b)) : DiskIo Location) := by
      rw [hl]
      rfl
    obtain ⟨short,hsh⟩ := hsh
    obtain ⟨next,hn⟩ := rebuild_front hsh
    rw [map_cons,copyFrames,hg]
    have hr : Leads T (fun t => Disk.Within ord Scratch d0 t) (readFrame H source
        (locationOf H fr (.batch b)).offset (locationOf H fr (.batch b)).endOffset
        (locationOf H fr (.batch b)).previous) d _ d :=
      leads_readFrame hb hf (Nat.le_refl _) h.within
    refine hr.andThen ?_ (fun _ _ _ => id) (fun _ hs hw => ⟨hs,hw⟩)
    refine Meets.bind (R := fun _ t => d = t) (Meets.give_ok (ensure_of ⟨rfl,rfl⟩) rfl) ?_
    rintro _ _ rfl
    refine (meets_appendFrame h hn).bind ?_
    rintro _ d' ⟨rfl,hbu⟩
    have hres : rs = (fr ++ [.batch b]) ++ todo.map .batch := by rw [hre,hsp]
    dsimp only
    rw [h.index_next hn]
    exact ih hres ⟨short,hsh⟩ hbu

end Building

structure Split (H : Hasher) (records : List Record) (log : AppendOnlyStorage)
    (cp : Checkpoint) (state : InMemoryState) (batches : List CommitBatch) : Prop where
  parts : ∃ front before, records = front ++ batches.map .batch ∧ rebuild H front = .ok before ∧
    before.checkpoint = some cp ∧ before.state = state
  whole : rebuild H records = .ok log.core
  room : cp.height.toNat + 1 < 2 ^ 64

def replacing (cp : Checkpoint) (state : InMemoryState) (batches : List CommitBatch) : List Record :=
  .anchor cp state :: batches.map .batch

variable {bts : List CommitBatch} {head : Checkpoint}

lemma Split.short (h : Split H rs log cp st bts) :
    ∃ short, rebuild H (replacing cp st bts) = .ok short ∧ Shortened cp log.core short := by
  obtain ⟨fr,pre,rfl,hf,hc,rfl⟩ := h.parts
  exact rebuild_shortened hf hc h.room h.whole

lemma split_of_read {fl : UInt64}
    (hlo : rebuild H rs = .ok log.core) (hh : log.checkpoint = some head)
    (hlow : fl < head.height)
    (hr : log.history.read H fl log.checkpoint log.state = .ok (some (cp,st))) :
    cp.height = fl ∧ ∃ bts, Split H rs log cp st bts ∧
      heightsAbove cp head = bts.map (·.block.header.height.toNat) := by
  obtain ⟨fr,back,pre,rfl,hf,hc,rfl,rfl⟩ := read_ok hlo hr
  obtain ⟨bts,rfl,hl,hhe⟩ := rebuild_heights hf hc hlo hh
  have ha : heightsAbove cp head = bts.map (·.block.header.height.toNat) := by
    rw [heightsAbove,hhe,hl,Nat.add_sub_cancel_left]
  have hro : cp.height.toNat + 1 < 2 ^ 64 := by
    have := UInt64.lt_iff_toNat_lt.mp hlow
    have := head.height.toNat_lt
    omega
  exact ⟨rfl,bts,⟨⟨fr,pre,rfl,hf,hc,rfl⟩,hlo,hro⟩,ha⟩

lemma meets_writeReplacement {budget : Nat}
    (hw : Disk.Within ord Scratch d0 d) (hsp : Split H rs log cp st bts)
    (ha : heightsAbove cp head = bts.map (·.block.header.height.toNat))
    (hwr : ∀ x ∈ rs, Written H x) (hf : d0.entry .log = some log.file)
    (hc : image H rs <+: (d0.inode log.file).content) :
    Meets T (writeReplacement H log head cp st budget) d
      ⟨fun r d' => Building H ord d0 d' r (replacing cp st bts) ∧
          d'.inode r.file = ⟨image H (replacing cp st bts),none⟩ ∧
          ∃ bs, encodeAnchor H cp st = .ok bs,
        fun _ d' => Disk.Within ord Scratch d0 d',
        fun d' => CanStop T ∧ Disk.Within ord Scratch d0 d'⟩ := by
  obtain ⟨short,hsh,-⟩ := hsp.short
  obtain ⟨fr,pre,hr,-⟩ := hsp.parts
  refine meets_createReplacement hw ?_ (fun _ _ => id) (fun _ => id)
  intro d1 file h1
  refine Meets.bind (R := fun bs t => d1 = t ∧ encodeAnchor H cp st = .ok bs)
    (Meets.give (fun _ hb => ⟨rfl,hb⟩) (fun _ _ => h1.within)) ?_
  rintro bs _ ⟨rfl,hby⟩
  obtain rfl : payload H (.anchor cp st) = bs := payload_of_encode hby
  have hfi : rebuild H ([] ++ [.anchor cp st]) = .ok _ := rfl
  refine (meets_appendFrame h1 hfi).bind ?_
  rintro _ d2 ⟨rfl,h2⟩
  have he : d2.entry .log = some log.file := (h2.within.entry _ (not_scratch (.inl rfl))).trans hf
  have ho := (Disk.leads_openFile (T := T) (J := fun t => Disk.Within ord Scratch d0 t)
    he h2.within).failingAs StorageError.io
  refine ho.andThen ?_ (fun _ _ _ => id) (fun _ hs hw => ⟨hs,hw⟩)
  rw [ha]
  refine (meets_copyFrames hsp.whole hwr (d0.entry_lt _ _ hf) hc hr ⟨short,hsh⟩ h2).bind ?_
  rintro r d3 ⟨rfl,h3⟩
  have hsy := (Disk.leads_syncAll (T := T) (J := fun t => Disk.Within ord Scratch d0 t)
    h3.within h3.sync.within).failingAs StorageError.io
  refine hsy.andThen ?_ (fun _ _ _ => id) (fun _ hs hw => ⟨hs,hw⟩)
  have hd := (Disk.leads_syncDir (T := T) (J := fun t => Disk.Within ord Scratch d0 t)
    h3.sync.within h3.sync.settle.within).failingAs StorageError.io
  refine hd.andThen ?_ (fun _ _ _ => id) (fun _ hs hw => ⟨hs,hw⟩)
  refine Meets.pure ⟨h3.sync.settle,?_,_,hby⟩
  rw [Disk.inode_settle,Disk.inode_alter _ _ h3.own.1,Inode.sync,h3.content]
  rfl

end Astrolune.Storage

import Astrolune.Storage.Frames

namespace Astrolune.Storage
open Lib Codec State AppendOnlyStorage Function

/-- What a power loss may do to what was not synced: whether updates of the directory are kept in
their order, and whether bytes may come back that were never written. -/
structure Loss where
  ordered : Bool
  torn : Bool

/-- What may be asked of the records and the retention record found in a log. -/
abbrev Finding := List Record → Option RetentionRecord → Prop

/-- The records with which a directory can be opened. -/
structure Valid (H : Hasher) (records : List Record)
    (retention : Option RetentionRecord) : Prop where
  written : ∀ r ∈ records, Written H r
  fits : (image H records).length < 2 ^ 64
  readable : ∀ record, retention = some record →
    ¬(record.floor = 0 ∨ record.compactions = 0 ∨ record.block = Hash256.zero)
  rebuilt : ∃ log, rebuild H records = .ok log ∧
    checkRetention { log with retention } = .ok ()

abbrev Pledges := Nat → Inode.Pledge

def Scratch (n : LogFile) : Prop := n = .pending ∨ n = .compact ∨ n = .retainPending

section Views

variable (H : Hasher) (K : Pledges) (v : Directory LogFile)

def Retains : Option RetentionRecord → Prop
  | none => v .retain = none
  | some record => ∃ i, v .retain = some i ∧ K i = .exact (record.toBytes H)

structure Plain (records : List Record) (retention : Option RetentionRecord) : Prop where
  log : ∃ i bytes, v .log = some i ∧ K i = .front bytes ∧ image H records <+: bytes
  head : ∃ j, v .head = some j ∧ K j = .exact (headOf H records)
  retain : Retains H K v retention

def Unmarked : Prop :=
  ∀ s, v .swap = some s → ∃ bytes, K s = .part bytes ∧ bytes.length < headBytesLength

end Views

section Change

variable {H : Hasher} {K : Pledges} {v w : Directory LogFile} {rs : List Record}
  {retention : Option RetentionRecord}

lemma Retains.congr (h : Retains H K w retention) (heq : v .retain = w .retain) :
    Retains H K v retention := by
  cases retention with
  | none => exact heq.trans h
  | some rec =>
    obtain ⟨i,hi,hK⟩ := h
    exact ⟨i,heq.trans hi,hK⟩

lemma Plain.congr (h : Plain H K w rs retention) (hl : v .log = w .log)
    (hh : v .head = w .head) (hre : v .retain = w .retain) :
    Plain H K v rs retention := by
  obtain ⟨⟨i,bs,hi,hf⟩,⟨j,hj,he⟩,hr⟩ := h
  exact ⟨⟨i,bs,hl.trans hi,hf⟩,⟨j,hh.trans hj,he⟩,hr.congr hre⟩

lemma Unmarked.congr (h : Unmarked K w) (heq : v .swap = w .swap) : Unmarked K v :=
  fun s hs => h s (heq ▸ hs)

lemma not_scratch {n : LogFile} (h : n = .log ∨ n = .head ∨ n = .retain ∨ n = .swap) :
    ¬Scratch n := by
  rcases h with rfl | rfl | rfl | rfl <;> simp [Scratch]

lemma Plain.off_scratch (h : Plain H K w rs retention)
    (heq : ∀ n, ¬Scratch n → v n = w n) : Plain H K v rs retention :=
  h.congr (heq _ (not_scratch (.inl rfl))) (heq _ (not_scratch (.inr (.inl rfl))))
    (heq _ (not_scratch (.inr (.inr (.inl rfl)))))

lemma Unmarked.off_scratch (h : Unmarked K w) (heq : ∀ n, ¬Scratch n → v n = w n) :
    Unmarked K v := h.congr (heq _ (not_scratch (.inr (.inr (.inr rfl)))))

variable {p : Nat} {q : Inode.Pledge}

lemma Retains.promise (h : Retains H K v retention)
    (hf : ∀ bs, K p ≠ .exact bs) : Retains H (update K p q) v retention := by
  cases retention with
  | none => exact h
  | some rec =>
    obtain ⟨i,hi,hK⟩ := h
    have hn : i ≠ p := fun heq => hf _ (heq ▸ hK)
    exact ⟨i,hi,(update_of_ne hn _ _).trans hK⟩

lemma Plain.promise (h : Plain H K v rs retention)
    (hf : K p = .free) : Plain H (update K p q) v rs retention := by
  obtain ⟨⟨i,bs,hi,hfr,hl⟩,⟨j,hj,he⟩,hr⟩ := h
  have hi' : i ≠ p := fun heq => by simp [heq,hf] at hfr
  have hj' : j ≠ p := fun heq => by simp [heq,hf] at he
  exact ⟨⟨i,bs,hi,(update_of_ne hi' _ _).trans hfr,hl⟩,
    ⟨j,hj,(update_of_ne hj' _ _).trans he⟩,hr.promise (by simp [hf])⟩

lemma Unmarked.promise (h : Unmarked K v)
    (hf : ∀ bs, K p ≠ .part bs) : Unmarked (update K p q) v := by
  intro s hs
  obtain ⟨bs,hp,hl⟩ := h s hs
  have hn : s ≠ p := fun heq => hf bs (heq ▸ hp)
  exact ⟨bs,(update_of_ne hn _ _).trans hp,hl⟩

lemma Plain.extend {bs more : Bytes} (h : Plain H K v rs retention)
    (hf : K p = .front bs) (hl : bs <+: more) :
    Plain H (update K p (.front more)) v rs retention := by
  obtain ⟨⟨i,b,hi,hb,hl'⟩,⟨j,hj,he⟩,hr⟩ := h
  have hj' : j ≠ p := fun heq => by simp [heq,hf] at he
  refine ⟨?_,⟨j,hj,(update_of_ne hj' _ _).trans he⟩,hr.promise (by simp [hf])⟩
  by_cases hip : i = p
  · subst hip
    rw [hf] at hb
    cases hb
    exact ⟨i,more,hi,update_self _ _ _,hl'.trans hl⟩
  · exact ⟨i,b,hi,(update_of_ne hip _ _).trans hb,hl'⟩

end Change

section Disks

variable (H : Hasher) (loss : Loss) (d : LogDisk)

def Untorn (K : Pledges) : Prop := loss.torn = true → ∀ i bytes, K i ≠ .part bytes

/-- Whatever of the last updates a power loss undoes, what is found are the files of a log that
satisfies `P`. What a running process finds has all the bytes that its file keeps. -/
structure CalmBy (K : Pledges) (P : Finding) : Prop where
  honors : d.Honors K
  untorn : Untorn loss K
  views : ∀ v, d.MayShow loss.ordered v → Unmarked K v ∧ ∃ records retention,
    P records retention ∧ Valid H records retention ∧ Plain H K v records retention
  top : ∃ records retention i, P records retention ∧ Valid H records retention ∧
    Plain H K d.entry records retention ∧ d.entry .log = some i ∧
    K i = .front (image H records)

def Calm (P : Finding) : Prop := ∃ K, CalmBy H loss d K P

/-- The published files of one log. Its own file may have more bytes than were published. -/
structure PublishedBy (K : Pledges) (file : Nat) (records : List Record)
    (retention : Option RetentionRecord) : Prop where
  honors : d.Honors K
  untorn : Untorn loss K
  pledged : K file = .front (image H records)
  views : ∀ v, d.MayShow loss.ordered v →
    v .log = some file ∧ Plain H K v records retention ∧ Unmarked K v

structure HoldsBy (K : Pledges) (file : Nat) (records : List Record)
    (retention : Option RetentionRecord) : Prop
    extends PublishedBy H loss d K file records retention where
  exact : d.inode file = ⟨image H records, none⟩

def Published (file : Nat) (records : List Record) (retention : Option RetentionRecord) : Prop :=
  ∃ K, PublishedBy H loss d K file records retention

def Holds (file : Nat) (records : List Record) (retention : Option RetentionRecord) : Prop :=
  ∃ K, HoldsBy H loss d K file records retention

structure Live (log : AppendOnlyStorage) (records : List Record) : Prop where
  rebuilt : rebuild H records = .ok log.core
  valid : Valid H records log.retention
  holds : Holds H loss d log.file records log.retention

end Disks

section Keeping

variable {H : Hasher} {loss : Loss} {d d' : LogDisk} {K : Pledges} {file : Nat}
  {rs : List Record} {retention : Option RetentionRecord}
  {P Q : Finding}

lemma Untorn.update {i : Nat} {p : Inode.Pledge} (h : Untorn loss K)
    (hp : ∀ bs, p ≠ .part bs) : Untorn loss (update K i p) := by
  intro ht j bs
  by_cases hj : j = i
  · rw [hj,update_self]
    exact hp bs
  · rw [update_of_ne hj]
    exact h ht j bs

lemma CalmBy.mono (h : CalmBy H loss d K P) (hPQ : ∀ r ret, P r ret → Q r ret) :
    CalmBy H loss d K Q := by
  obtain ⟨top,ret,i,hP,ht⟩ := h.top
  refine ⟨h.honors,h.untorn,fun v hv => ?_,top,ret,i,hPQ top ret hP,ht⟩
  obtain ⟨hu,rs,retention,hP,hr⟩ := h.views v hv
  exact ⟨hu,rs,retention,hPQ rs retention hP,hr⟩

lemma Calm.mono (h : Calm H loss d P) (hPQ : ∀ r ret, P r ret → Q r ret) : Calm H loss d Q := by
  obtain ⟨K,h⟩ := h
  exact ⟨K,h.mono hPQ⟩

namespace PublishedBy

lemma entry (h : PublishedBy H loss d K file rs retention) :
    d.entry .log = some file ∧ Plain H K d.entry rs retention ∧ Unmarked K d.entry :=
  h.views _ (Disk.mayShow_entry _ _)

lemma lt (h : PublishedBy H loss d K file rs retention) : file < d.inodes.length :=
  d.entry_lt _ _ h.entry.1

lemma head (h : PublishedBy H loss d K file rs retention) :
    ∃ j, d.entry .head = some j ∧ d.inode j = ⟨headOf H rs,none⟩ := by
  obtain ⟨j,hj,he⟩ := h.entry.2.1.head
  have hk := h.honors.kept j
  rw [he] at hk
  exact ⟨j,hj,hk⟩

lemma keeps (h : PublishedBy H loss d K file rs retention) :
    (d.inode file).Keeps (image H rs) := by
  have hk := h.honors.kept file
  rw [h.pledged] at hk
  exact hk

lemma calm (h : PublishedBy H loss d K file rs retention) (hP : P rs retention)
    (hv : Valid H rs retention) : CalmBy H loss d K P where
  honors := h.honors
  untorn := h.untorn
  views v hvi := ⟨(h.views v hvi).2.2,rs,retention,hP,hv,(h.views v hvi).2.1⟩
  top := ⟨rs,retention,file,hP,hv,h.entry.2.1,h.entry.1,h.pledged⟩

lemma within (h : PublishedBy H loss d K file rs retention)
    (hw : Disk.Within loss.ordered Scratch d d') :
    PublishedBy H loss d' K file rs retention where
  honors := h.honors.within hw
  untorn := h.untorn
  pledged := h.pledged
  views v hv := by
    obtain ⟨w,hvi,ha⟩ := hw.views v hv
    obtain ⟨hl,hp,hu⟩ := h.views w hvi
    exact ⟨(ha _ (not_scratch (.inl rfl))).trans hl,hp.off_scratch ha,hu.off_scratch ha⟩

lemma alter {i : Nat} {f : Inode → Inode}
    (h : PublishedBy H loss d K file rs retention) (hf : (f (d.inode i)).Honors (K i)) :
    PublishedBy H loss (d.alter i f) K file rs retention :=
  ⟨h.honors.alter hf,h.untorn,h.pledged,h.views⟩

lemma grow {f : Inode → Inode} (h : PublishedBy H loss d K file rs retention)
    (hf : (f (d.inode file)).Keeps (image H rs)) :
    PublishedBy H loss (d.alter file f) K file rs retention := by
  refine h.alter ?_
  rw [h.pledged]
  exact hf

end PublishedBy

lemma HoldsBy.within (h : HoldsBy H loss d K file rs retention)
    (hw : Disk.Within loss.ordered Scratch d d') :
    HoldsBy H loss d' K file rs retention :=
  ⟨h.toPublishedBy.within hw,(hw.inode file h.lt).trans h.exact⟩

lemma Holds.within (h : Holds H loss d file rs retention)
    (hw : Disk.Within loss.ordered Scratch d d') : Holds H loss d' file rs retention := by
  obtain ⟨K,h⟩ := h
  exact ⟨K,h.within hw⟩

lemma HoldsBy.promise {p : Nat} {q : Inode.Pledge}
    (h : HoldsBy H loss d K file rs retention) (hf : K p = .free)
    (hp : p < d.inodes.length) (hq : (d.inode p).Honors q)
    (ht : ∀ bs, q = .part bs → loss.torn = false) :
    HoldsBy H loss d (update K p q) file rs retention := by
  have hn : file ≠ p := by
    intro heq
    have hple := h.pledged
    rw [heq,hf] at hple
    cases hple
  refine ⟨⟨h.honors.update hp hq,?_,(update_of_ne hn _ _).trans h.pledged,fun v hv => ?_⟩, h.exact⟩
  · intro hlo i bs
    by_cases hi : i = p
    · rw [hi,update_self]
      intro heq
      cases (ht bs heq).symm.trans hlo
    · rw [update_of_ne hi]
      exact h.untorn hlo i bs
  · obtain ⟨hl,hpl,hu⟩ := h.views v hv
    exact ⟨hl,hpl.promise hf,hu.promise (by simp [hf])⟩

lemma CalmBy.within (h : CalmBy H loss d K P)
    (hw : Disk.Within loss.ordered Scratch d d') : CalmBy H loss d' K P := by
  obtain ⟨top,ret,i,hP,hva,hp,hi,hf⟩ := h.top
  refine ⟨h.honors.within hw,h.untorn,fun v hv => ?_,top,ret,i,hP,hva,?_,?_,hf⟩
  · obtain ⟨w,hvi,ha⟩ := hw.views v hv
    obtain ⟨hu,rs,retention,hP,hva,hp⟩ := h.views w hvi
    exact ⟨hu.off_scratch ha,rs,retention,hP,hva,hp.off_scratch ha⟩
  · exact hp.off_scratch hw.entry
  · exact (hw.entry _ (not_scratch (.inl rfl))).trans hi

lemma CalmBy.alter {i : Nat} {f : Inode → Inode} (h : CalmBy H loss d K P)
    (hf : (f (d.inode i)).Honors (K i)) : CalmBy H loss (d.alter i f) K P :=
  ⟨h.honors.alter hf,h.untorn,h.views,h.top⟩

lemma CalmBy.settle (h : CalmBy H loss d K P) : CalmBy H loss d.settle K P where
  honors := h.honors.same (Nat.le_refl _) fun _ _ => rfl
  untorn := h.untorn
  views v hv := by
    obtain rfl := hv.settle
    exact h.views _ (Disk.mayShow_entry _ _)
  top := h.top

/-- A power loss picks one of the views. What its file keeps beyond the records is given up. -/
lemma Calm.lose {mask : List Bool} {left : Nat → Bytes} (h : Calm H loss d P)
    (hm : Allowed loss.ordered mask)
    (hle : loss.torn = false → ∀ i, (d.inode i).Partial (left i)) :
    Calm H loss (d.lose mask left) P := by
  obtain ⟨K,h⟩ := h
  have hh : (d.lose mask left).Honors K := by
    refine h.honors.lose mask fun i bs hp => hle ?_ i
    cases ht : loss.torn with
    | false => rfl
    | true => exact absurd hp (h.untorn ht i bs)
  have hvi : d.MayShow loss.ordered (d.view mask) := ⟨mask,hm,rfl⟩
  obtain ⟨hu,rs,retention,hP,hva,hpl⟩ := h.views _ hvi
  obtain ⟨⟨i,bs,hi,hf,hl⟩,⟨j,hj,he⟩,hr⟩ := hpl
  have hlt : i < (d.lose mask left).inodes.length := by
    rw [Disk.length_lose]
    exact hvi.lt hi
  have hk : ((d.lose mask left).inode i).Honors (.front (image H rs)) := by
    have hke := hh.kept i
    rw [hf] at hke
    exact Inode.Keeps.shorter hke hl
  have hji : j ≠ i := fun heq => by simp [heq,hf] at he
  have hp' : Plain H (update K i (.front (image H rs))) (d.view mask) rs retention :=
    ⟨⟨i,_,hi,update_self _ _ _,List.prefix_refl _⟩,
      ⟨j,hj,(update_of_ne hji _ _).trans he⟩,hr.promise (by simp [hf])⟩
  refine ⟨update K i (.front (image H rs)),hh.update hlt hk, h.untorn.update (by simp),?_,?_⟩
  · intro v hv
    obtain rfl := hv.lose
    exact ⟨hu.promise (by simp [hf]),rs,retention,hP,hva,hp'⟩
  · exact ⟨rs,retention,i,hP,hva,hp',hi,update_self _ _ _⟩

end Keeping
end Astrolune.Storage

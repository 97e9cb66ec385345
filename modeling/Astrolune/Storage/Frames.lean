import Astrolune.Storage.Rebuild

namespace Astrolune.Storage
open Lib Codec State AppendOnlyStorage List

variable {H : Hasher}

lemma length_headBody (endOffset : Nat) (tip : Hash256) : (headBody endOffset tip).length = 48 := by
  simp only [headBody,length_append,leBytes_length,tip.2]
  rfl

lemma length_headBytes (endOffset : Nat) (tip : Hash256) :
    (headBytes H endOffset tip).length = headBytesLength := by
  rw [headBytes,length_append,length_headBody,(domainHash H _ _).2]
  rfl

lemma parseHead_headBytes {endOffset : Nat} {tip : Hash256} (h : endOffset < 2 ^ 64) :
    parseHead H (headBytes H endOffset tip) = .ok (endOffset,tip) := by
  have hf : (headBytes H endOffset tip).take 48 = headBody endOffset tip :=
    take_left' (length_headBody endOffset tip)
  have hb : (headBytes H endOffset tip).drop 48 =
      (domainHash H headDomain (headBody endOffset tip)).1 :=
    drop_left' (length_headBody endOffset tip)
  have hm : (headBytes H endOffset tip).take 8 = logMagic := by
    rw [headBytes,headBody,append_assoc]
    exact take_left' rfl
  have hby : headBytes H endOffset tip = logMagic ++ (leBytes 8 endOffset ++ (tip.1 ++
      (domainHash H headDomain (headBody endOffset tip)).1)) := by
    simp only [headBytes,headBody,append_assoc]
  have he : numberAt (headBytes H endOffset tip) 8 = endOffset := by
    rw [hby]
    exact numberAt_between rfl h
  have ht : ∀ hl, hashAt (headBytes H endOffset tip) 16 hl = tip := by
    rw [hby,← append_assoc]
    exact fun hl => hashAt_between (by simp; rfl)
  rw [parseHead,dif_pos ⟨length_headBytes endOffset tip,hm,by rw [hf,hb]⟩]
  simp only [he,ht]

lemma parseHead_of_length {bs : Bytes} (h : bs.length ≠ headBytesLength) :
    parseHead H bs = .error .corrupt := dif_neg fun ha => h ha.1

variable {T : Turn → Prop} {J : LogDisk → Prop} {d : LogDisk}

lemma leads_readHeadAt {n : LogFile} {i endOffset : Nat} {tip : Hash256}
    (hen : d.entry n = some i) (hc : (d.inode i).content = headBytes H endOffset tip)
    (he : endOffset < 2 ^ 64) (hJ : J d) :
    Leads T J (readHeadAt H n) d (endOffset,tip) d := by
  refine ((Disk.leads_openFile hen hJ).failingAs _).bind ?_
  refine ((Disk.leads_readToEnd hJ).failingAs _).bind (Leads.give ?_)
  rw [hc,take_of_length_le (by rw [length_headBytes]; omega),parseHead_headBytes he]

section Frames

variable {file : Nat} {fr : List Record} {r : Record}

variable {endOffset : Nat} {back : List Record}

lemma leads_readFrame (hr : Written H r) (hf : image H (fr ++ [r]) <+: (d.inode file).content)
    (he : (image H (fr ++ [r])).length ≤ endOffset) (hJ : J d) :
    Leads T J (readFrame H file (image H fr).length endOffset (tipOf H fr)) d
      (payload H r,locationOf H fr r) d := by
  obtain ⟨rest,hre⟩ := hf
  have hs := hr.decode.1
  have hn : leNat (leBytes 8 (payload H r).length) = (payload H r).length :=
    leNat_leBytes_of_lt (Nat.lt_of_le_of_lt hs (by decide))
  rw [length_image_snoc] at he
  -- The content, cut where the frame's parts are read.
  have hc : (d.inode file).content = image H fr ++ (leBytes 8 (payload H r).length ++
      (payload H r ++ ((frameHash H (tipOf H fr) (payload H r)).1 ++ rest))) := by
    rw [← hre,image_snoc,frame]
    simp only [append_assoc]
  have hp : (d.inode file).content = (image H fr ++ leBytes 8 (payload H r).length) ++
      (payload H r ++ ((frameHash H (tipOf H fr) (payload H r)).1 ++ rest)) := by
    rw [hc,append_assoc]
  have hh : (d.inode file).content =
      (image H fr ++ leBytes 8 (payload H r).length ++ payload H r) ++
        ((frameHash H (tipOf H fr) (payload H r)).1 ++ rest) := by
    rw [hp]
    simp only [append_assoc]
  refine (Leads.give (ensure_of (by omega))).bind ?_
  refine ((Disk.leads_seek hJ).failingAs _).bind ?_
  refine ((Disk.leads_readAt hc rfl (leBytes_length 8 _) hJ).failingAs _).bind ?_
  rw [hn]
  refine (Leads.give (ensure_of ⟨hs,by omega⟩)).bind ?_
  refine ((Disk.leads_readAt hp (by simp) rfl hJ).failingAs _).bind ?_
  refine ((Disk.leads_readAt hh (by simp only [length_append,leBytes_length])
    (frameHash H _ _).2 hJ).failingAs _).bind ?_
  refine (Leads.give (ensure_of rfl)).bind ?_
  have hl : locationOf H fr r =
      { offset := (image H fr).length
        endOffset := (image H fr).length + (payload H r).length + frameOverhead
        previous := tipOf H fr
        hash := frameHash H (tipOf H fr) (payload H r) } := by
    rw [locationOf,length_image_snoc,tipOf_snoc,Nat.add_assoc]
  rw [hl]
  exact Leads.pure _ _

lemma leads_readRecordAt (hr : Written H r) (hf : image H (fr ++ [r]) <+: (d.inode file).content)
    (he : (image H (fr ++ [r])).length ≤ endOffset) (hJ : J d) :
    Leads T J (readRecordAt H file (image H fr).length endOffset
      (tipOf H fr)) d (r,locationOf H fr r) d :=
  (leads_readFrame hr hf he hJ).bind ((Leads.give hr.decode.2).bind (Leads.pure _ _))

lemma leads_checkHeader (hf : header H <+: (d.inode file).content) (hJ : J d) :
    Leads T J (checkHeader H file) d () d := by
  obtain ⟨rest,hre⟩ := hf
  have hc : (d.inode file).content = [] ++ (header H ++ rest) := hre.symm
  have hr : Leads T J (Disk.readAt file 0 headerSize) d (header H) d :=
    Disk.leads_readAt hc rfl length_header hJ
  exact (hr.failingAs _).bind (Leads.give (ensure_of ⟨take_left' rfl,drop_left' rfl⟩))

lemma image_grows (H : Hasher) (fr back : List Record) (r : Record) :
    (image H fr).length < (image H (fr ++ [r])).length ∧
      (image H (fr ++ [r])).length ≤ (image H (fr ++ [r] ++ back)).length := by
  have ho : 0 < frameOverhead := by decide
  have hs : (image H (fr ++ [r])).length = _ := length_image_snoc fr r
  exact ⟨by omega,(image_append (fr ++ [r]) back).length_le⟩

lemma leads_verifyLoop {fuel : Nat} (hw : ∀ r ∈ back, Written H r)
    (hf : image H (fr ++ back) <+: (d.inode file).content)
    (hfu : (image H (fr ++ back)).length ≤ (image H fr).length + fuel) (hJ : J d) :
    Leads T J (verifyLoop H file (image H (fr ++ back)).length fuel
      (image H fr).length (tipOf H fr)) d
      ((image H (fr ++ back)).length,tipOf H (fr ++ back)) d := by
  induction back generalizing fr fuel with
  | nil =>
    rw [append_nil]
    cases fuel with
    | zero => exact Leads.pure _ _
    | succ fuel =>
      rw [verifyLoop,if_neg (Nat.lt_irrefl _)]
      exact Leads.pure _ _
  | cons r back ih =>
    have hs : fr ++ r :: back = fr ++ [r] ++ back := by simp
    rw [hs] at hf hfu ⊢
    obtain ⟨hg,hl⟩ := image_grows H fr back r
    obtain ⟨hr,hb⟩ := forall_mem_cons.mp hw
    cases fuel with
    | zero => omega
    | succ fuel =>
      rw [verifyLoop,if_pos (by omega)]
      refine (leads_readFrame hr ((image_append (fr ++ [r]) back).trans hf) hl hJ).bind ?_
      exact ih hb hf (by omega)

lemma leads_verifyFrames {n : LogFile} {rs : List Record} (he : d.entry n = some file)
    (hw : ∀ r ∈ rs, Written H r)
    (hf : image H rs <+: (d.inode file).content) (hJ : J d) :
    Leads T J (verifyFrames H n (image H rs).length (tipOf H rs)) d () d := by
  refine (Leads.give (ensure_of (headerSize_le rs))).bind ?_
  refine ((Disk.leads_openFile he hJ).failingAs _).bind ?_
  refine ((Disk.leads_fileLength hJ).failingAs _).bind ?_
  refine (Leads.give (ensure_of hf.length_le)).bind ?_
  refine (leads_checkHeader ((header_front rs).trans hf) hJ).bind ?_
  have hl : Leads T J (verifyLoop H file (image H ([] ++ rs)).length
      (image H rs).length (image H []).length (tipOf H [])) d _ d :=
    leads_verifyLoop hw hf (by simp) hJ
  rw [length_image_nil] at hl
  exact hl.bind (Leads.give (ensure_of ⟨rfl,rfl⟩))

lemma leads_replayLoop {fuel : Nat} {log final : AppendOnlyStorage}
    (hw : ∀ r ∈ back, Written H r)
    (hf : image H (fr ++ back) <+: (d.inode log.file).content)
    (hfo : Follows H fr log) (hfi : back.foldlM (replay H) log = .ok final)
    (hfu : (image H (fr ++ back)).length ≤ (image H fr).length + fuel) (hJ : J d) :
    Leads T (fun s => J s.1) (replayLoop H (image H (fr ++ back)).length fuel) (d,log)
      () (d,final) := by
  induction back generalizing fr fuel log with
  | nil =>
    obtain rfl : log = final := Except.ok.inj hfi
    have he : ¬log.endOffset < (image H (fr ++ [])).length := by
      rw [hfo.endOffset,append_nil]
      exact Nat.lt_irrefl _
    cases fuel with
    | zero => exact Leads.pure _ _
    | succ fuel =>
      refine (Leads.read _ _).bind ?_
      rw [if_neg he]
      exact Leads.pure _ _
  | cons r back ih =>
    have hs : fr ++ r :: back = fr ++ [r] ++ back := by simp
    rw [hs] at hf hfu ⊢
    obtain ⟨hg,hl⟩ := image_grows H fr back r
    obtain ⟨hr,hb⟩ := forall_mem_cons.mp hw
    rw [foldlM_cons,bind_eq_ok] at hfi
    obtain ⟨next,hn,hfi⟩ := hfi
    have hf' := hfo.replay hn
    obtain ⟨cp,st,ha,rfl⟩ := replay_eq_ok.mp hn
    cases fuel with
    | zero => omega
    | succ fuel =>
      refine (Leads.read _ _).bind ?_
      rw [if_pos (by rw [hfo.endOffset]; omega)]
      have hre := leads_readRecordAt (T := T) (J := J) hr
        ((image_append (fr ++ [r]) back).trans hf) hl hJ
      rw [← hfo.endOffset,← hfo.tip,← nextLocation_eq hfo] at hre
      have hr' : Leads T (fun s : LogState => J s.1) _ (d,log) _ (d,log) :=
        hre.outer fun _ h => h
      refine hr'.bind ?_
      refine (Leads.give ha).bind ((Leads.modify _ _).bind ?_)
      exact ih hb hf hf' hfi (by omega)

end Frames
end Astrolune.Storage

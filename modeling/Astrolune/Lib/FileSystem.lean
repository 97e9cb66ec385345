import Astrolune.Lib.Disk

namespace Astrolune.Lib
open List Option

inductive Fault where
  | notFound
  | alreadyExists
  | other
  deriving DecidableEq

def Ended.ofExcept {ε α : Type} : Except ε α → Ended ε α
  | .ok a => .ok a
  | .error e => .error e

namespace Disk

variable {Name α : Type}

def query (f : Disk Name → Except Fault α) : Io (Disk Name) Fault α := Io.call fun turn d =>
  match turn with
  | .done => (.ofExcept (f d), d)
  | .failed _ _ => (.error .other, d)
  | .stopped _ _ => (.stopped, d)

/-- A call that changes the disk, and that leaves `cut` behind when it does not complete. -/
def perform (f : Disk Name → Except Fault (α × Disk Name))
    (cut : Bool → Nat → Disk Name → Disk Name) : Io (Disk Name) Fault α := Io.call fun turn d =>
  match turn with
  | .done =>
    match f d with
    | .ok (a, d') => (.ok a, d')
    | .error e => (.error e, d)
  | .failed applied written => (.error .other, cut applied written d)
  | .stopped applied written => (.stopped, cut applied written d)

variable {T : Turn → Prop} {d : Disk Name}

variable {f : Disk Name → Except Fault α} {cut : Bool → Nat → Disk Name → Disk Name}
  {d' : Disk Name}

lemma meets_query {Q : Post (Disk Name) Fault α}
    (hd : Q.Holds (.ofExcept (f d),d)) (hf : CanFail T → Q.error .other d)
    (hs : CanStop T → Q.stopped d) : Meets T (query f) d Q :=
  Meets.call hd (fun _ _ h => hf ⟨_,_,h⟩) (fun _ _ h => hs ⟨_,_,h⟩)

lemma meets_perform {f : Disk Name → Except Fault (α × Disk Name)} {Q : Post (Disk Name) Fault α}
    (ho : ∀ a d', f d = .ok (a,d') → Q.ok a d') (he : ∀ e, f d = .error e → Q.error e d)
    (hf : CanFail T → ∀ applied written, Q.error .other (cut applied written d))
    (hs : CanStop T → ∀ applied written, Q.stopped (cut applied written d)) :
    Meets T (perform f cut) d Q := by
  refine Meets.call ?_ (fun _ _ h => hf ⟨_,_,h⟩ _ _) (fun _ _ h => hs ⟨_,_,h⟩ _ _)
  change Q.Holds (match f d with | .ok (a,d') => (.ok a,d') | .error e => (.error e,d))
  split
  · next a d' h => exact ho a d' h
  · next e h => exact he e h

lemma cut_of {P : Disk Name → Prop} {b : Bool} (h : P d) (h' : P d') :
    P (if b then d' else d) := by
  cases b with
  | false => exact h
  | true => exact h'

lemma leads_query {J : Disk Name → Prop} {a : α}
    (hf : f d = .ok a) (hJ : J d) : Leads T J (query f) d a d := by
  refine meets_query ?_ (fun h => ⟨h,hJ⟩) (fun h => ⟨h,hJ⟩)
  rw [hf]
  exact ⟨rfl,rfl⟩

lemma leads_perform {J : Disk Name → Prop} {f : Disk Name → Except Fault (α × Disk Name)} {a : α}
    (hf : f d = .ok (a,d'))
    (hJ : ∀ applied written, J (cut applied written d)) : Leads T J (perform f cut) d a d' := by
  refine meets_perform (fun b d'' h => ?_) (fun e h => ?_) (fun h b k => ⟨h,hJ b k⟩)
    (fun h b k => ⟨h,hJ b k⟩)
  · rw [hf] at h
    cases h
    exact ⟨rfl,rfl⟩
  · rw [hf] at h
    cases h

section OpenFiles

def seek : Io (Disk Name) Fault Unit := query fun _ => .ok ()

def fileLength (i : Nat) : Io (Disk Name) Fault Nat :=
  query fun d => .ok (d.inode i).content.length

def readAt (i offset n : Nat) : Io (Disk Name) Fault Bytes := query fun d =>
  if offset + n ≤ (d.inode i).content.length then .ok (((d.inode i).content.drop offset).take n)
  else .error .other

def readToEnd (i limit : Nat) : Io (Disk Name) Fault Bytes :=
  query fun d => .ok ((d.inode i).content.take limit)

def writeAt (i offset : Nat) (bytes : Bytes) : Io (Disk Name) Fault Unit :=
  perform (fun d => .ok ((), d.alter i (·.write offset bytes)))
    fun _ written d => d.alter i (·.write offset (bytes.take written))

def setLen (i n : Nat) : Io (Disk Name) Fault Unit :=
  perform (fun d => .ok ((), d.alter i (·.setLen n)))
    fun applied _ d => if applied then d.alter i (·.setLen n) else d

def syncAll (i : Nat) : Io (Disk Name) Fault Unit :=
  perform (fun d => .ok ((), d.alter i (·.sync)))
    fun applied _ d => if applied then d.alter i (·.sync) else d

lemma meets_readToEnd {i lim : Nat} {Q : Post (Disk Name) Fault Bytes}
    (ho : Q.ok ((d.inode i).content.take lim) d) (hf : CanFail T → Q.error .other d)
    (hs : CanStop T → Q.stopped d) : Meets T (readToEnd i lim) d Q :=
  meets_query ho hf hs

lemma meets_writeAt {i off : Nat} {bs : Bytes} {Q : Post (Disk Name) Fault Unit}
    (ho : Q.ok () (d.alter i (·.write off bs)))
    (hf : CanFail T → ∀ k, Q.error .other (d.alter i (·.write off (bs.take k))))
    (hs : CanStop T → ∀ k, Q.stopped (d.alter i (·.write off (bs.take k)))) :
    Meets T (writeAt i off bs) d Q := by
  refine meets_perform ?_ (fun e h => ?_) (fun h _ k => hf h k) (fun h _ k => hs h k)
  · rintro _ d' h
    cases h
    exact ho
  · cases h

lemma meets_alter {i : Nat} {f : Inode → Inode} {Q : Post (Disk Name) Fault Unit}
    (ho : Q.ok () (d.alter i f)) (hf : CanFail T → Q.error .other d ∧ Q.error .other (d.alter i f))
    (hs : CanStop T → Q.stopped d ∧ Q.stopped (d.alter i f)) :
    Meets T (perform (fun d => .ok ((),d.alter i f))
      fun applied _ d => if applied then d.alter i f else d) d Q := by
  refine meets_perform ?_ (fun e h => ?_) (fun h _ _ => cut_of (hf h).1 (hf h).2)
    (fun h _ _ => cut_of (hs h).1 (hs h).2)
  · rintro _ d' h
    cases h
    exact ho
  · cases h

section Leads

variable {J : Disk Name → Prop} {i off n : Nat} {bs : Bytes}

lemma leads_seek (hJ : J d) : Leads T J seek d () d := leads_query rfl hJ

lemma leads_fileLength (hJ : J d) :
    Leads T J (fileLength i) d (d.inode i).content.length d := leads_query rfl hJ

lemma leads_readAt {pre after : Bytes} (h : (d.inode i).content = pre ++ (bs ++ after))
    (ho : pre.length = off) (hn : bs.length = n) (hJ : J d) :
    Leads T J (readAt i off n) d bs d := by
  refine leads_query ?_ hJ
  have hr : off + n ≤ (d.inode i).content.length := by
    rw [h,length_append,length_append]
    omega
  rw [if_pos hr,h,drop_left' ho,take_left' hn]

lemma leads_readToEnd (hJ : J d) :
    Leads T J (readToEnd i n) d ((d.inode i).content.take n) d := leads_query rfl hJ

lemma leads_writeAt (hJ : ∀ k, J (d.alter i (·.write off (bs.take k)))) :
    Leads T J (writeAt i off bs) d () (d.alter i (·.write off bs)) :=
  leads_perform rfl fun _ k => hJ k

lemma leads_setLen (hJ : J d) (hJ' : J (d.alter i (·.setLen n))) :
    Leads T J (setLen i n) d () (d.alter i (·.setLen n)) :=
  leads_perform rfl fun _ _ => cut_of hJ hJ'

lemma leads_syncAll (hJ : J d) (hJ' : J (d.alter i (·.sync))) :
    Leads T J (syncAll i) d () (d.alter i (·.sync)) :=
  leads_perform rfl fun _ _ => cut_of hJ hJ'

end Leads

end OpenFiles

section Directories

variable [DecidableEq Name]

def openFile (n : Name) : Io (Disk Name) Fault Nat := query fun d => okOr .notFound (d.entry n)

def metadata (n : Name) : Io (Disk Name) Fault Unit :=
  query fun d => if (d.entry n).isSome then .ok () else .error .notFound

def remove (n : Name) : Io (Disk Name) Fault Unit :=
  perform (fun d => if (d.entry n).isSome then .ok ((), d.unlink n) else .error .notFound)
    fun applied _ d => if applied && (d.entry n).isSome then d.unlink n else d

def create (n : Name) : Io (Disk Name) Fault Nat :=
  perform (fun d => if (d.entry n).isSome then .error .alreadyExists
      else .ok (d.inodes.length, d.link n))
    fun applied _ d => if applied && (d.entry n).isNone then d.link n else d

def rename (a b : Name) : Io (Disk Name) Fault Unit := Io.call fun turn d =>
  match turn with
  | .done => if (d.entry a).isSome then (.ok (), d.move a b) else (.error .notFound, d)
  | .failed _ _ => (.error .other, d)
  | .stopped applied _ => (.stopped, if applied && (d.entry a).isSome then d.move a b else d)

def syncDir : Io (Disk Name) Fault Unit :=
  perform (fun d => .ok ((), d.settle)) fun applied _ d => if applied then d.settle else d

lemma meets_openFile {n : Name} {Q : Post (Disk Name) Fault Nat}
    (hs : ∀ i, d.entry n = some i → Q.ok i d)
    (hn : d.entry n = none → Q.error .notFound d) (hf : CanFail T → Q.error .other d)
    (hst : CanStop T → Q.stopped d) : Meets T (openFile n) d Q := by
  refine meets_query ?_ hf hst
  cases h : d.entry n with
  | none => exact hn h
  | some i => exact hs i h

variable {Q : Post (Disk Name) Fault Unit}

lemma meets_metadata {n : Name} (hs : ∀ i, d.entry n = some i → Q.ok () d)
    (hn : d.entry n = none → Q.error .notFound d) (hf : CanFail T → Q.error .other d)
    (hst : CanStop T → Q.stopped d) : Meets T (metadata n) d Q := by
  refine meets_query ?_ hf hst
  cases h : d.entry n with
  | none => exact hn h
  | some i => exact hs i h

lemma meets_remove {n : Name} (hs : Q.ok () (d.unlink n))
    (hn : d.entry n = none → Q.error .notFound d)
    (hf : CanFail T → Q.error .other d ∧ Q.error .other (d.unlink n))
    (hst : CanStop T → Q.stopped d ∧ Q.stopped (d.unlink n)) : Meets T (remove n) d Q := by
  refine meets_perform ?_ ?_ (fun h _ _ => cut_of (hf h).1 (hf h).2)
    (fun h _ _ => cut_of (hst h).1 (hst h).2)
  · intro _ d' h
    split at h
    · obtain rfl := congrArg Prod.snd (Except.ok.inj h)
      exact hs
    · cases h
  · intro e h
    split at h
    · cases h
    · next he =>
      obtain rfl := Except.error.inj h
      exact hn (not_isSome_iff_eq_none.mp he)

lemma meets_create {n : Name} {Q : Post (Disk Name) Fault Nat}
    (hn : d.entry n = none → Q.ok d.inodes.length (d.link n))
    (ho : ∀ i, d.entry n = some i → Q.error .alreadyExists d)
    (hf : CanFail T → Q.error .other d ∧ (d.entry n = none → Q.error .other (d.link n)))
    (hs : CanStop T → Q.stopped d ∧ (d.entry n = none → Q.stopped (d.link n))) :
    Meets T (create n) d Q := by
  have hc : ∀ {P : Disk Name → Prop} (b : Bool), P d → (d.entry n = none → P (d.link n)) →
      P (if b && (d.entry n).isNone then d.link n else d) := by
    intro P b h h'
    split
    · next hb =>
      rw [Bool.and_eq_true,isNone_iff_eq_none] at hb
      exact h' hb.2
    · exact h
  refine meets_perform ?_ ?_ (fun h b _ => hc b (hf h).1 (hf h).2) (fun h b _ => hc b (hs h).1 (hs h).2)
  · intro i d' h
    split at h
    · cases h
    · next he =>
      cases h
      exact hn (not_isSome_iff_eq_none.mp he)
  · intro e h
    split at h
    · next he =>
      obtain ⟨i,hi⟩ := isSome_iff_exists.mp he
      obtain rfl := Except.error.inj h
      exact ho i hi
    · cases h

lemma meets_rename {a b : Name} {i : Nat} (ha : d.entry a = some i) (ho : Q.ok () (d.move a b))
    (hf : CanFail T → Q.error .other d)
    (hst : CanStop T → Q.stopped d ∧ Q.stopped (d.move a b)) : Meets T (rename a b) d Q := by
  refine Meets.call ?_ (fun _ _ h => hf ⟨_,_,h⟩) (fun applied written h => ?_)
  · rw [ha]
    exact ho
  · obtain ⟨hs,hm⟩ := hst ⟨_,_,h⟩
    exact cut_of hs hm

lemma meets_syncDir (ho : Q.ok () d.settle)
    (hf : CanFail T → Q.error .other d ∧ Q.error .other d.settle)
    (hs : CanStop T → Q.stopped d ∧ Q.stopped d.settle) : Meets T syncDir d Q := by
  refine meets_perform ?_ (fun e h => ?_) (fun h _ _ => cut_of (hf h).1 (hf h).2)
    (fun h _ _ => cut_of (hs h).1 (hs h).2)
  · rintro _ d' h
    cases h
    exact ho
  · cases h

section Leads

variable {J : Disk Name → Prop} {n a b : Name} {i : Nat}

lemma leads_openFile (h : d.entry n = some i) (hJ : J d) : Leads T J (openFile n) d i d :=
  leads_query (by rw [h]; rfl) hJ

lemma leads_create (h : d.entry n = none) (hJ : J d) (hJ' : J (d.link n)) :
    Leads T J (create n) d d.inodes.length (d.link n) :=
  leads_perform (by rw [h]; rfl) fun _ _ => cut_of hJ hJ'

lemma leads_rename (h : d.entry a = some i) (hJ : J d) (hJ' : J (d.move a b)) :
    Leads T J (rename a b) d () (d.move a b) :=
  meets_rename h ⟨rfl,rfl⟩ (fun hf => ⟨hf,hJ⟩) (fun hs => ⟨⟨hs,hJ⟩,hs,hJ'⟩)

lemma leads_syncDir (hJ : J d) (hJ' : J d.settle) : Leads T J syncDir d () d.settle :=
  leads_perform rfl fun _ _ => cut_of hJ hJ'

end Leads

end Directories
end Disk
end Astrolune.Lib

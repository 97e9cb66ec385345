import Astrolune.Lib.Bytes
import Astrolune.Lib.Io
import Astrolune.Lib.Result
import Mathlib.Logic.Function.Basic

namespace Astrolune.Lib
open List Function Option

/-- The bytes of a file. What stands past `unsynced` may come back as anything. -/
structure Inode where
  content : Bytes
  unsynced : Option Nat
  deriving DecidableEq

namespace Inode

def fresh : Inode := ⟨[], some 0⟩

def write (f : Inode) (offset : Nat) (bytes : Bytes) : Inode :=
  ⟨overwrite f.content offset bytes, some (min offset (f.unsynced.getD offset))⟩

def setLen (f : Inode) (n : Nat) : Inode :=
  ⟨f.content.take n ++ replicate (n - f.content.length) 0, some (min n (f.unsynced.getD n))⟩

def sync (f : Inode) : Inode := ⟨f.content, none⟩

def lose (f : Inode) (left : Bytes) : Inode :=
  match f.unsynced with
  | none => f
  | some n => ⟨f.content.take n ++ left, none⟩

structure Keeps (f : Inode) (front : Bytes) : Prop where
  starts : front <+: f.content
  safe : ∀ n ∈ f.unsynced, front.length ≤ n

lemma keeps_self (bs : Bytes) : Keeps ⟨bs,none⟩ bs := ⟨prefix_refl bs,fun _ h => nomatch h⟩

variable {f : Inode} {front left : Bytes}

lemma Keeps.shorter {more : Bytes} (h : f.Keeps more) (hp : front <+: more) : f.Keeps front :=
  ⟨hp.trans h.starts,fun n hn => hp.length_le.trans (h.safe n hn)⟩

lemma Keeps.write {bs : Bytes} {off : Nat} (h : f.Keeps front)
    (hl : front.length ≤ off) : (f.write off bs).Keeps front := by
  refine ⟨?_,?_⟩
  · have hf : front <+: f.content.take off := prefix_take_iff.mpr ⟨h.starts,hl⟩
    exact hf.trans ((prefix_append _ bs).trans (prefix_append _ _))
  · intro n hn
    obtain rfl := some.inj hn
    cases hu : f.unsynced with
    | none => simpa using hl
    | some m => simpa using ⟨hl,h.safe m hu⟩

lemma Keeps.setLen {n : Nat} (h : f.Keeps front) (hl : front.length ≤ n) :
    (f.setLen n).Keeps front := by
  refine ⟨?_,?_⟩
  · have hf : front <+: f.content.take n := prefix_take_iff.mpr ⟨h.starts,hl⟩
    exact hf.trans (prefix_append _ _)
  · intro m hm
    obtain rfl := some.inj hm
    cases hu : f.unsynced with
    | none => simpa using hl
    | some k => simpa using ⟨hl,h.safe k hu⟩

lemma Keeps.sync (h : f.Keeps front) : f.sync.Keeps front := ⟨h.starts,fun _ hn => nomatch hn⟩

lemma Keeps.lose (h : f.Keeps front) : (f.lose left).Keeps front := by
  unfold Inode.lose
  split
  · exact h
  · next n hn =>
    have hf : front <+: f.content.take n := prefix_take_iff.mpr ⟨h.starts,h.safe n hn⟩
    exact ⟨hf.trans (prefix_append _ left),fun _ hm => nomatch hm⟩

lemma setLen_sync (h : front <+: f.content) : (f.setLen front.length).sync = ⟨front,none⟩ := by
  obtain ⟨rest,hr⟩ := h
  have hro : front.length - f.content.length = 0 := by
    rw [← hr,length_append]
    omega
  rw [Inode.sync,Inode.setLen,hro,← hr,take_left]
  simp

@[simp] lemma lose_synced (bs left : Bytes) : lose ⟨bs,none⟩ left = ⟨bs,none⟩ := rfl

lemma lose_lose (f : Inode) (left left' : Bytes) : (f.lose left).lose left' = f.lose left := by
  cases hf : f.unsynced <;> simp [lose,hf]

def Partial (f : Inode) (left : Bytes) : Prop := ∀ n ∈ f.unsynced, left <+: f.content.drop n

lemma Partial.lose (h : f.Partial left) : (f.lose left).content <+: f.content := by
  unfold Inode.lose
  split
  · exact prefix_refl _
  · next n hn =>
    have hl := (prefix_append_right_inj (f.content.take n)).mpr (h n hn)
    rwa [take_append_drop] at hl

/-- What is promised about a file: nothing, how it starts, all of its bytes, or that it has only a
first part of some bytes. -/
inductive Pledge where
  | free
  | front (bytes : Bytes)
  | exact (bytes : Bytes)
  | part (bytes : Bytes)

def Honors (f : Inode) : Pledge → Prop
  | .free => True
  | .front bytes => f.Keeps bytes
  | .exact bytes => f = ⟨bytes, none⟩
  | .part bytes => f.content <+: bytes

/-- All promises outlast a power loss; the last kind only when no bytes appear that were never
written. -/
lemma Honors.lose {p : Pledge} (h : f.Honors p)
    (hl : ∀ bs, p = .part bs → f.Partial left) : (f.lose left).Honors p := by
  cases p with
  | free => trivial
  | front bs => exact Keeps.lose h
  | exact bs =>
    cases h
    exact lose_synced bs left
  | part bs => exact (hl bs rfl).lose.trans h

end Inode

abbrev Directory (Name : Type) := Name → Option Nat

/-- One atomic change of a directory: the names that it rebinds. -/
abbrev Update (Name : Type) := List (Name × Option Nat)

section Directories

variable {Name : Type} [DecidableEq Name]

def Update.on (u : Update Name) (dir : Directory Name) : Directory Name :=
  u.foldl (fun dir e => update dir e.1 e.2) dir

def persist : Directory Name → List (Update Name) → List Bool → Directory Name
  | dir, u :: rest, kept :: mask => persist (if kept then u.on dir else dir) rest mask
  | dir, _, _ => dir

/-- Which updates a power loss may keep: any of them, or only an initial part. -/
def Allowed (ordered : Bool) (mask : List Bool) : Prop := ordered = true → ∀ kept ∈ mask, kept = true

instance (ordered : Bool) (mask : List Bool) : Decidable (Allowed ordered mask) :=
  inferInstanceAs (Decidable (_ → _))

variable {u : Update Name} {dir : Directory Name} {bound : Nat}

lemma Update.on_lt
    (hu : ∀ e ∈ u, ∀ i ∈ e.2, i < bound) (hd : ∀ n, ∀ i ∈ dir n, i < bound) (n : Name) :
    ∀ i ∈ u.on dir n, i < bound := by
  induction u generalizing dir with
  | nil => exact hd n
  | cons e rest ih =>
    refine ih (fun e' he' => hu e' (mem_cons_of_mem e he')) (fun m i hi => ?_)
    change i ∈ update dir e.1 e.2 m at hi
    by_cases hm : m = e.1
    · subst hm
      rw [update_self] at hi
      exact hu e mem_cons_self i hi
    · rw [update_of_ne hm] at hi
      exact hd m i hi

lemma Update.on_of_notMem {n : Name}
    (h : ∀ e ∈ u, e.1 ≠ n) : u.on dir n = dir n := by
  induction u generalizing dir with
  | nil => rfl
  | cons e rest ih =>
    refine (ih fun e' he' => h e' (mem_cons_of_mem e he')).trans ?_
    exact update_of_ne (h e mem_cons_self).symm _ _

lemma persist_lt {updates : List (Update Name)}
    (hu : ∀ u ∈ updates, ∀ e ∈ u, ∀ i ∈ e.2, i < bound) (hd : ∀ n, ∀ i ∈ dir n, i < bound)
    (mask : List Bool) (n : Name) : ∀ i ∈ persist dir updates mask n, i < bound := by
  induction updates generalizing dir mask with
  | nil => exact hd n
  | cons u rest ih =>
    cases mask with
    | nil => exact hd n
    | cons kept mask =>
      refine ih (fun u' hu' => hu u' (mem_cons_of_mem u hu')) ?_ mask
      cases kept with
      | false => exact hd
      | true => exact Update.on_lt (hu u mem_cons_self) hd

lemma persist_all (dir : Directory Name) (updates : List (Update Name)) :
    persist dir updates (replicate updates.length true) =
      updates.foldl (fun dir u => u.on dir) dir := by
  induction updates generalizing dir with
  | nil => rfl
  | cons u rest ih => exact ih _

/-- One more update: it is lost, or it happens on top of what the others may have left. -/
lemma persist_append (updates : List (Update Name)) (dir : Directory Name) (u : Update Name)
    {ord : Bool} {mask : List Bool} (hma : Allowed ord mask) :
    (∃ mask', Allowed ord mask' ∧ persist dir (updates ++ [u]) mask = persist dir updates mask') ∨
    ∃ mask', Allowed ord mask' ∧
      persist dir (updates ++ [u]) mask = u.on (persist dir updates mask') ∧
      (ord = true → persist dir updates mask' = updates.foldl (fun dir u => u.on dir) dir) := by
  induction updates generalizing dir mask with
  | nil =>
    cases mask with
    | nil => exact .inl ⟨[],fun _ _ h => (not_mem_nil h).elim,rfl⟩
    | cons kept mask =>
      cases kept with
      | false => exact .inl ⟨[],fun _ _ h => (not_mem_nil h).elim,rfl⟩
      | true => exact .inr ⟨[],fun _ _ h => (not_mem_nil h).elim,rfl,fun _ => rfl⟩
  | cons v rest ih =>
    cases mask with
    | nil => exact .inl ⟨[],hma,rfl⟩
    | cons kept mask =>
      have hr : Allowed ord mask := fun ho b hb => hma ho b (mem_cons_of_mem kept hb)
      rcases ih (if kept then v.on dir else dir) hr with ⟨m,hm,he⟩ | ⟨m,hm,he,ha⟩
      · refine .inl ⟨kept :: m,fun ho b hb => ?_,he⟩
        rcases mem_cons.mp hb with rfl | hb
        · exact hma ho b mem_cons_self
        · exact hm ho b hb
      · refine .inr ⟨kept :: m,fun ho b hb => ?_,he,fun ho => ?_⟩
        · rcases mem_cons.mp hb with rfl | hb
          · exact hma ho b mem_cons_self
          · exact hm ho b hb
        · have hk : kept = true := hma ho kept mem_cons_self
          subst hk
          exact ha ho

end Directories

/-- Files and one directory over them. Updates of the directory reach the disk when it is synced;
until then a power loss may undo them. -/
structure Disk (Name : Type) where
  inodes : List Inode
  stable : Directory Name
  pending : List (Update Name)
  stable_lt : ∀ n, ∀ i ∈ stable n, i < inodes.length
  pending_lt : ∀ u ∈ pending, ∀ e ∈ u, ∀ i ∈ e.2, i < inodes.length

namespace Disk

variable {Name : Type}

def empty : Disk Name where
  inodes := []
  stable _ := none
  pending := []
  stable_lt _ _ h := nomatch h
  pending_lt _ h := (not_mem_nil h).elim

def inode (d : Disk Name) (i : Nat) : Inode := d.inodes.getD i ⟨[], none⟩

def push (d : Disk Name) (u : Update Name) (h : ∀ e ∈ u, ∀ i ∈ e.2, i < d.inodes.length) :
    Disk Name :=
  { d with
    pending := d.pending ++ [u]
    pending_lt := by
      intro v hv
      rcases mem_append.mp hv with hv | hv
      · exact d.pending_lt v hv
      · obtain rfl := mem_singleton.mp hv
        exact h }

def unlink (d : Disk Name) (n : Name) : Disk Name :=
  d.push [(n, none)] fun _ he _ hi => by simp [mem_singleton.mp he] at hi

def grow (d : Disk Name) : Disk Name :=
  { d with
    inodes := d.inodes ++ [Inode.fresh]
    stable_lt := fun n i hi => by
      have := d.stable_lt n i hi
      simp
      omega
    pending_lt := fun u hu e he i hi => by
      have := d.pending_lt u hu e he i hi
      simp
      omega }

def link (d : Disk Name) (n : Name) : Disk Name :=
  d.grow.push [(n, some d.inodes.length)] fun e he i hi => by
    obtain rfl := mem_singleton.mp he
    obtain rfl := some.inj hi
    simp [grow]

def alter (d : Disk Name) (i : Nat) (f : Inode → Inode) : Disk Name :=
  { d with
    inodes := d.inodes.modify i f
    stable_lt := by simpa using d.stable_lt
    pending_lt := by simpa using d.pending_lt }

section Inodes

variable (d : Disk Name)

@[simp] lemma length_push (u : Update Name) (h) : (d.push u h).inodes.length = d.inodes.length := rfl
@[simp] lemma length_unlink (n : Name) : (d.unlink n).inodes.length = d.inodes.length := rfl
@[simp] lemma length_link (n : Name) : (d.link n).inodes.length = d.inodes.length + 1 := by
  simp [link,grow]
@[simp] lemma length_alter (i : Nat) (f : Inode → Inode) :
    (d.alter i f).inodes.length = d.inodes.length := by
  simp [alter]

@[simp] lemma inode_push (u : Update Name) (h) (i : Nat) : (d.push u h).inode i = d.inode i := rfl
@[simp] lemma inode_unlink (n : Name) (i : Nat) : (d.unlink n).inode i = d.inode i := rfl

@[simp] lemma inode_link_new (n : Name) : (d.link n).inode d.inodes.length = Inode.fresh := by
  simp [inode,link,grow,push,List.getD]

lemma inode_alter {i : Nat} (f : Inode → Inode) (h : i < d.inodes.length) :
    (d.alter i f).inode i = f (d.inode i) := by
  simp [inode,alter,List.getD,h]

lemma alter_alter (i : Nat) (f g : Inode → Inode) :
    (d.alter i f).alter i g = d.alter i fun x => g (f x) := by
  simp only [alter,modify_modify_eq]
  rfl

lemma alter_id (i : Nat) : d.alter i id = d := by
  have hi : ∀ l : List Inode, l.modify i id = l := fun l => modify_id i l
  simp only [alter,hi]

lemma inode_alter_ne {i j : Nat} (f : Inode → Inode) (h : j ≠ i) :
    (d.alter i f).inode j = d.inode j := by
  simp [inode,alter,List.getD,Ne.symm h]

end Inodes

variable [DecidableEq Name]

def entry (d : Disk Name) : Directory Name := d.pending.foldl (fun dir u => u.on dir) d.stable

def view (d : Disk Name) (mask : List Bool) : Directory Name := persist d.stable d.pending mask

lemma view_lt (d : Disk Name) (mask : List Bool) (n : Name) :
    ∀ i ∈ d.view mask n, i < d.inodes.length := persist_lt d.pending_lt d.stable_lt mask n

lemma view_all (d : Disk Name) :
    d.view (replicate d.pending.length true) = d.entry := persist_all _ _

lemma entry_lt (d : Disk Name) (n : Name) : ∀ i ∈ d.entry n, i < d.inodes.length :=
  d.view_all ▸ d.view_lt _ n

def move (d : Disk Name) (a b : Name) : Disk Name :=
  d.push [(b, d.entry a), (a, none)] fun e he i hi => by
    rcases mem_cons.mp he with rfl | he
    · exact d.entry_lt a i hi
    · simp [mem_singleton.mp he] at hi

def settle (d : Disk Name) : Disk Name where
  inodes := d.inodes
  stable := d.entry
  pending := []
  stable_lt := d.entry_lt
  pending_lt _ h := (not_mem_nil h).elim

/-- A power loss: it keeps the selected updates, and leaves anything in place of unsynced bytes. -/
def lose (d : Disk Name) (mask : List Bool) (left : Nat → Bytes) : Disk Name where
  inodes := d.inodes.mapIdx fun i f => f.lose (left i)
  stable := d.view mask
  pending := []
  stable_lt := by simpa using d.view_lt mask
  pending_lt _ h := (not_mem_nil h).elim

section Entries

variable (d : Disk Name)

@[simp] lemma length_move (a b : Name) : (d.move a b).inodes.length = d.inodes.length := rfl
@[simp] lemma length_settle : d.settle.inodes.length = d.inodes.length := rfl
@[simp] lemma length_lose (mask : List Bool) (left : Nat → Bytes) :
    (d.lose mask left).inodes.length = d.inodes.length := by
  simp [lose]
@[simp] lemma inode_move (a b : Name) (i : Nat) : (d.move a b).inode i = d.inode i := rfl
@[simp] lemma inode_settle (i : Nat) : d.settle.inode i = d.inode i := rfl

lemma inode_lose (mask : List Bool) (left : Nat → Bytes) {i : Nat} (h : i < d.inodes.length) :
    (d.lose mask left).inode i = (d.inode i).lose (left i) := by
  simp [inode,lose,List.getD,h]

@[simp] lemma entry_push (u : Update Name) (h) : (d.push u h).entry = u.on d.entry := by
  simp [entry,push]

@[simp] lemma entry_alter (i : Nat) (f : Inode → Inode) : (d.alter i f).entry = d.entry := rfl

@[simp] lemma entry_settle : d.settle.entry = d.entry := rfl

@[simp] lemma entry_lose (mask : List Bool) (left : Nat → Bytes) :
    (d.lose mask left).entry = d.view mask := rfl

@[simp] lemma entry_link (n : Name) :
    (d.link n).entry = update d.entry n (some d.inodes.length) :=
  entry_push d.grow _ _

@[simp] lemma entry_unlink (n : Name) : (d.unlink n).entry = update d.entry n none :=
  entry_push d _ _

@[simp] lemma entry_move (a b : Name) : (d.move a b).entry =
    update (update d.entry b (d.entry a)) a none :=
  entry_push d _ _

end Entries

lemma lose_lose (d : Disk Name) (mask mask' : List Bool) (left left' : Nat → Bytes) :
    (d.lose mask left).lose mask' left' = d.lose mask left := by
  have hv : (d.lose mask left).view mask' = d.view mask := by cases mask' <;> rfl
  simp only [lose,Disk.mk.injEq,mapIdx_mapIdx,comp_def,Inode.lose_lose]
  exact ⟨trivial,hv,trivial⟩

def MayShow (ordered : Bool) (d : Disk Name) (v : Directory Name) : Prop :=
  ∃ mask, Allowed ordered mask ∧ v = d.view mask

section Views

variable {ord : Bool} {d : Disk Name} {v : Directory Name}

lemma mayShow_entry (ord : Bool) (d : Disk Name) : d.MayShow ord d.entry :=
  ⟨_,fun _ _ h => (mem_replicate.mp h).2,d.view_all.symm⟩

lemma MayShow.lt (h : d.MayShow ord v) {n : Name} {i : Nat} (hi : v n = some i) :
    i < d.inodes.length := by
  obtain ⟨mask,_,rfl⟩ := h
  exact d.view_lt mask n i hi

lemma MayShow.push {u : Update Name} {hu} (h : (d.push u hu).MayShow ord v) :
    d.MayShow ord v ∨ ∃ w, d.MayShow ord w ∧ v = u.on w ∧ (ord = true → w = d.entry) := by
  obtain ⟨mask,hma,rfl⟩ := h
  rcases persist_append d.pending d.stable u hma with ⟨m,hm,he⟩ | ⟨m,hm,he,ha⟩
  · exact .inl ⟨m,hm,he⟩
  · exact .inr ⟨_,⟨m,hm,rfl⟩,he,ha⟩

lemma MayShow.move {a b : Name} (h : (d.move a b).MayShow ord v) :
    d.MayShow ord v ∨ ∃ w, d.MayShow ord w ∧
      v = update (update w b (d.entry a)) a none ∧ (ord = true → w = d.entry) :=
  h.push

lemma MayShow.link {n : Name} (h : (d.link n).MayShow ord v) :
    d.MayShow ord v ∨ ∃ w, d.MayShow ord w ∧
      v = update w n (some d.inodes.length) ∧ (ord = true → w = d.entry) :=
  MayShow.push h

lemma MayShow.unlink {n : Name} (h : (d.unlink n).MayShow ord v) :
    d.MayShow ord v ∨ ∃ w, d.MayShow ord w ∧ v = update w n none ∧ (ord = true → w = d.entry) :=
  h.push

lemma MayShow.alter {i : Nat} {f : Inode → Inode} (h : (d.alter i f).MayShow ord v) :
    d.MayShow ord v := h

lemma MayShow.settle (h : d.settle.MayShow ord v) : v = d.entry := by
  obtain ⟨mask,_,rfl⟩ := h
  cases mask <;> rfl

lemma MayShow.lose {mask : List Bool} {left : Nat → Bytes}
    (h : (d.lose mask left).MayShow ord v) : v = d.view mask := by
  obtain ⟨mask',_,rfl⟩ := h
  cases mask' <;> rfl

end Views

/-- Nothing happened but to new files and to the names of `scratch`. -/
structure Within (ordered : Bool) (scratch : Name → Prop) (d d' : Disk Name) : Prop where
  size : d.inodes.length ≤ d'.inodes.length
  inode : ∀ i < d.inodes.length, d'.inode i = d.inode i
  entry : ∀ n, ¬scratch n → d'.entry n = d.entry n
  views : ∀ v, d'.MayShow ordered v →
    ∃ w, d.MayShow ordered w ∧ ∀ n, ¬scratch n → v n = w n

namespace Within

variable {ord : Bool} {scratch : Name → Prop} {d d' : Disk Name}

lemma refl (ord : Bool) (scratch : Name → Prop) (d : Disk Name) : Within ord scratch d d :=
  ⟨Nat.le_refl _,fun _ _ => rfl,fun _ _ => rfl,fun v hv => ⟨v,hv,fun _ _ => rfl⟩⟩

lemma mono {more : Name → Prop} (h : Within ord scratch d d') (hl : ∀ n, scratch n → more n) :
    Within ord more d d' := by
  refine ⟨h.size,h.inode,fun n hn => h.entry n fun hs => hn (hl n hs),fun v hv => ?_⟩
  obtain ⟨w,hw,ha⟩ := h.views v hv
  exact ⟨w,hw,fun n hn => ha n fun hs => hn (hl n hs)⟩

lemma trans {d'' : Disk Name} (h : Within ord scratch d d')
    (h' : Within ord scratch d' d'') : Within ord scratch d d'' := by
  refine ⟨h.size.trans h'.size,fun i hi => ?_,fun n hn => ?_,fun v hv => ?_⟩
  · rw [h'.inode i (Nat.lt_of_lt_of_le hi h.size),h.inode i hi]
  · rw [h'.entry n hn,h.entry n hn]
  · obtain ⟨w,hw,ha⟩ := h'.views v hv
    obtain ⟨x,hx,ha'⟩ := h.views w hw
    exact ⟨x,hx,fun n hn => (ha n hn).trans (ha' n hn)⟩

lemma push {u : Update Name} {hu} (h : Within ord scratch d d')
    (hna : ∀ e ∈ u, scratch e.1) : Within ord scratch d (d'.push u hu) := by
  have ho : ∀ n, ¬scratch n → ∀ dir : Directory Name, u.on dir n = dir n :=
    fun n hn dir => Update.on_of_notMem fun e he heq => hn (heq ▸ hna e he)
  refine ⟨h.size,h.inode,fun n hn => ?_,fun v hv => ?_⟩
  · rw [entry_push,ho n hn,h.entry n hn]
  · rcases hv.push with hv | ⟨w,hw,rfl,-⟩
    · exact h.views v hv
    · obtain ⟨w',hw',ha⟩ := h.views w hw
      exact ⟨w',hw',fun n hn => (ho n hn w).trans (ha n hn)⟩

lemma unlink {n : Name} (h : Within ord scratch d d') (hn : scratch n) :
    Within ord scratch d (d'.unlink n) :=
  h.push fun _ he => (mem_singleton.mp he) ▸ hn

lemma grow (h : Within ord scratch d d') : Within ord scratch d d'.grow := by
  refine ⟨?_,fun i hi => ?_,h.entry,h.views⟩
  · have := h.size
    simp only [Disk.grow,length_append]
    omega
  · have hi' : i < d'.inodes.length := Nat.lt_of_lt_of_le hi h.size
    rw [← h.inode i hi]
    simp [Disk.inode,Disk.grow,List.getD,getElem?_append_left hi']

lemma link {n : Name} (h : Within ord scratch d d') (hn : scratch n) :
    Within ord scratch d (d'.link n) :=
  h.grow.push fun _ he => (mem_singleton.mp he) ▸ hn

lemma alter {i : Nat} {f : Inode → Inode} (h : Within ord scratch d d')
    (hi : d.inodes.length ≤ i) : Within ord scratch d (d'.alter i f) :=
  ⟨by rw [length_alter]; exact h.size,
    fun j hj => (d'.inode_alter_ne f (by omega)).trans (h.inode j hj),h.entry,h.views⟩

lemma settle (h : Within ord scratch d d') : Within ord scratch d d'.settle :=
  ⟨h.size,h.inode,h.entry,fun _ hv => ⟨d.entry,mayShow_entry _ _,hv.settle ▸ h.entry⟩⟩

end Within

def addFile (d : Disk Name) (n : Name) (bytes : Bytes) : Disk Name :=
  ((d.link n).alter d.inodes.length (·.write 0 bytes)).alter d.inodes.length (·.sync)

section AddFile

variable {d : Disk Name} {n : Name} {bs : Bytes}

omit [DecidableEq Name] in
@[simp] lemma length_addFile : (d.addFile n bs).inodes.length = d.inodes.length + 1 := by
  simp [addFile]

@[simp] lemma entry_addFile :
    (d.addFile n bs).entry = update d.entry n (some d.inodes.length) := by
  simp [addFile]

omit [DecidableEq Name] in
lemma inode_addFile : (d.addFile n bs).inode d.inodes.length = ⟨bs,none⟩ := by
  have hl : d.inodes.length < (d.link n).inodes.length := by simp
  rw [addFile,inode_alter _ _ (by simp),inode_alter _ _ hl,inode_link_new]
  simp [Inode.sync,Inode.write,Inode.fresh,overwrite]

lemma within_addFile (ord : Bool) {scratch : Name → Prop} (hn : scratch n) :
    Within ord scratch d (d.addFile n bs) :=
  (((Within.refl ord scratch d).link hn).alter (Nat.le_refl _)).alter (Nat.le_refl _)

end AddFile

structure Honors (d : Disk Name) (K : Nat → Inode.Pledge) : Prop where
  kept : ∀ i, (d.inode i).Honors (K i)
  absent : ∀ i, d.inodes.length ≤ i → K i = .free

namespace Honors

variable {d d' : Disk Name} {K : Nat → Inode.Pledge}

omit [DecidableEq Name] in
lemma same (h : d.Honors K) (hs : d.inodes.length ≤ d'.inodes.length)
    (hin : ∀ i < d.inodes.length, d'.inode i = d.inode i) : d'.Honors K := by
  refine ⟨fun i => ?_,fun i hi => h.absent i (hs.trans hi)⟩
  by_cases hi : i < d.inodes.length
  · rw [hin i hi]
    exact h.kept i
  · rw [h.absent i (Nat.le_of_not_lt hi)]
    trivial

lemma within {ord : Bool} {scratch : Name → Prop} (h : d.Honors K)
    (hw : Within ord scratch d d') : d'.Honors K := h.same hw.size hw.inode

omit [DecidableEq Name] in
lemma alter {i : Nat} {f : Inode → Inode} (h : d.Honors K) (hf : (f (d.inode i)).Honors (K i)) :
    (d.alter i f).Honors K := by
  refine ⟨fun j => ?_,fun j hj => h.absent j (by simpa using hj)⟩
  by_cases hj : j = i
  · subst hj
    by_cases hl : j < d.inodes.length
    · rw [d.inode_alter f hl]
      exact hf
    · rw [h.absent j (Nat.le_of_not_lt hl)]
      trivial
  · rw [d.inode_alter_ne f hj]
    exact h.kept j

lemma lose {left : Nat → Bytes} (h : d.Honors K) (mask : List Bool)
    (hl : ∀ i bs, K i = .part bs → (d.inode i).Partial (left i)) :
    (d.lose mask left).Honors K := by
  refine ⟨fun i => ?_,fun i hi => h.absent i (by simpa using hi)⟩
  by_cases hi : i < d.inodes.length
  · rw [d.inode_lose mask left hi]
    exact (h.kept i).lose (hl i)
  · rw [h.absent i (Nat.le_of_not_lt hi)]
    trivial

omit [DecidableEq Name] in
lemma update {i : Nat} {p : Inode.Pledge} (h : d.Honors K) (hi : i < d.inodes.length)
    (hp : (d.inode i).Honors p) : d.Honors (update K i p) := by
  refine ⟨fun j => ?_,fun j hj => ?_⟩
  · by_cases hj : j = i
    · subst hj
      rw [update_self]
      exact hp
    · rw [update_of_ne hj]
      exact h.kept j
  · rw [update_of_ne (by omega)]
    exact h.absent j hj

end Honors
end Disk
end Astrolune.Lib

import Mathlib.Data.List.Induction
import Astrolune.Consensus.History

namespace Astrolune.Consensus
open Lib Codec List

namespace CommitteeHistory

variable {H : Hasher} {h h' : CommitteeHistory} {roots : List Hash256}

def leavesFrom (H : Hasher) (h : CommitteeHistory) (start : Nat)
    (roots : List Hash256) : List Hash256 :=
  roots.mapIdx fun i root => h.leaf H (start + i + 1) root

@[simp] lemma length_leavesFrom (start : Nat) :
    (h.leavesFrom H start roots).length = roots.length := by simp [leavesFrom]

lemma leavesFrom_append (start : Nat) (a b : List Hash256) : h.leavesFrom H start (a ++ b) =
      h.leavesFrom H start a ++ h.leavesFrom H (start + a.length) b := by
  simp only [leavesFrom,mapIdx_append]
  congr 1
  refine congrArg (fun f => mapIdx f b) (funext fun i => funext fun root => ?_)
  rw [Nat.add_comm i a.length,Nat.add_assoc start a.length i]

variable {start : Nat} {root : Hash256} {lookup : Nat → Except ConsensusError Hash256}

lemma halves_leavesFrom {a b : List Hash256} (hab : Halves a b) :
    Halves (h.leavesFrom H start a) (h.leavesFrom H (start + a.length) b) := by
  obtain ⟨m,ha,hb,hl⟩ := hab
  exact ⟨m,by rw [length_leavesFrom,ha],by rwa [length_leavesFrom],by rwa [length_leavesFrom]⟩

structure Records (H : Hasher) (h : CommitteeHistory) (roots : List Hash256) :
    Prop where
  entries : h.entries = roots.length
  bounded : roots.length < 2 ^ 64
  slots : h.frontier.length = 64
  peaks : Peaks (node H) 0 h.frontier (h.leavesFrom H 0 roots)

lemma records_new {chainId : UInt32} {gen : Hash256} (hn : new chainId gen = .ok h) :
    Records H h [] := by
  simp only [new,bind_eq_ok,pure_ok_iff] at hn
  obtain ⟨_,_,rfl⟩ := hn
  exact ⟨rfl,by decide,length_replicate,Peaks.replicate_none 64⟩

lemma Records.append (hr : Records H h roots) {ctx : AuthenticatedCommittee}
    (hch : ctx.chainId = h.chainId) (hh : ctx.height.toNat = roots.length + 1) :
    ∃ h', h.append H ctx = some (.ok h') ∧ Records H h' (roots ++ [ctx.root]) ∧
      h'.chainId = h.chainId ∧ h'.genesis = h.genesis := by
  have hlt : roots.length + 1 < 2 ^ 64 := hh ▸ ctx.height.toNat_lt
  have hn : checkedAdd64 h.entries 1 = some (roots.length + 1) := by
    rw [hr.entries]
    exact checkedAdd64_eq_some.mpr ⟨rfl,hlt⟩
  obtain ⟨next,hc,hl,hp⟩ := hr.peaks.carryIn (b := [h.leaf H (roots.length + 1) ctx.root]) rfl rfl
    (by rwa [length_leavesFrom,Nat.pow_zero,Nat.div_one,hr.slots])
  rw [length_leavesFrom,Nat.pow_zero,Nat.div_one] at hc
  refine ⟨{ h with frontier := next, entries := roots.length + 1 },?_,⟨?_,?_,?_,?_⟩,rfl,rfl⟩
  · simp only [CommitteeHistory.append,hn,if_pos (And.intro hch hh)]
    rw [hr.entries,hc]
    rfl
  · rw [length_append]
    rfl
  · rw [length_append]
    exact hlt
  · exact hl.trans hr.slots
  · rw [leavesFrom_append,Nat.zero_add]
    exact hp

lemma Records.append_refused (hr : Records H h roots) {ctx : AuthenticatedCommittee}
    (hno : ¬(ctx.chainId = h.chainId ∧ ctx.height.toNat = roots.length + 1)) :
    h.append H ctx = some (.error .invalidTransition) := by
  unfold CommitteeHistory.append
  cases hn : checkedAdd64 h.entries 1 with
  | none => rfl
  | some next =>
    obtain ⟨rfl,-⟩ := checkedAdd64_eq_some.mp hn
    rw [hr.entries]
    exact if_neg hno

lemma Records.treeRoot_eq (hr : Records H h roots) : h.treeRoot H =
    (top (node H) (h.leavesFrom H 0 roots)).getD
      (domainHash H (ascii "astrolune.committee.history.empty.v1") []) := by
  rw [treeRoot,hr.peaks.joinPeaks]

structure Collects (H : Hasher) (h : CommitteeHistory) (start : Nat)
    (roots : List Hash256) (before after : CommitteeHistoryProof) : Prop where
  entries : after.entries = before.entries
  height : after.height = before.height
  outside : ¬(start < before.height ∧ before.height ≤ start + roots.length) → after = before
  inside : ∀ i root, before.height = start + i + 1 → roots[i]? = some root →
    after.committeeRoot = root ∧ ∃ path,
      PathTo (node H) (h.leavesFrom H start roots) i path ∧
        after.siblings = before.siblings ++ path

lemma collects_one (pre : CommitteeHistoryProof) : Collects H h start [root] pre
      (if start + 1 = pre.height then { pre with committeeRoot := root } else pre) := by
  split
  · next hh =>
    have hin : start < pre.height ∧ pre.height ≤ start + [root].length := by
      rw [length_singleton]
      omega
    refine ⟨rfl,rfl,fun ho => absurd hin ho,fun i r hi hr => ?_⟩
    obtain rfl : i = 0 := by omega
    cases hr
    exact ⟨rfl,[],PathTo.one _,(append_nil _).symm⟩
  · next hh =>
    refine ⟨rfl,rfl,fun _ => rfl,fun i r hi hr => absurd ?_ hh⟩
    have hl := (List.getElem?_eq_some_iff.mp hr).1
    rw [length_singleton] at hl
    omega

lemma Collects.both {a b : List Hash256} {x y : Hash256} (hab : Halves a b)
    {pre middle after : CommitteeHistoryProof}
    (hx : top (node H) (h.leavesFrom H start a) = some x)
    (hy : top (node H) (h.leavesFrom H (start + a.length) b) = some y)
    (ha : Collects H h start a pre middle)
    (hb : Collects H h (start + a.length) b middle after) :
    Collects H h start (a ++ b) pre
      (if start < after.height ∧ after.height ≤ start + (a ++ b).length then
        { after with siblings := after.siblings ++ [if after.height ≤ start + a.length then y else x] }
      else after) := by
  have hhe : after.height = pre.height := hb.height.trans ha.height
  have he : after.entries = pre.entries := hb.entries.trans ha.entries
  have hh : Halves (h.leavesFrom H start a)
    (h.leavesFrom H (start + a.length) b) := halves_leavesFrom hab
  rw [length_append,hhe]
  refine ⟨?_,?_,fun ho => ?_,fun i root hi hro => ?_⟩
  · split <;> exact he
  · split
    · rfl
    · exact hhe
  · rw [length_append] at ho
    rw [if_neg ho,hb.outside (by rw [ha.height]; omega),ha.outside (by omega)]
  · have hlt := (List.getElem?_eq_some_iff.mp hro).1
    rw [length_append] at hlt
    rw [if_pos (by omega),leavesFrom_append]
    by_cases hl : i < a.length
    · rw [getElem?_append_left hl] at hro
      obtain ⟨hf,path,hp,hs⟩ := ha.inside i root hi hro
      rw [hb.outside (by rw [ha.height]; omega),if_pos (by omega)]
      exact ⟨hf,path ++ [y],.left hh hp hy,by
        rw [hs,append_assoc]⟩
    · obtain ⟨j,rfl⟩ := Nat.exists_eq_add_of_le (Nat.le_of_not_lt hl)
      rw [getElem?_append_right (by omega),Nat.add_sub_cancel_left] at hro
      obtain rfl := ha.outside (by omega)
      obtain ⟨hf,path,hp,hs⟩ := hb.inside j root (by omega) hro
      rw [if_neg (by omega)]
      have hr := PathTo.right hh hp hx
      rw [length_leavesFrom] at hr
      exact ⟨hf,path ++ [x],hr,by rw [hs,append_assoc]⟩

lemma subtree_one {fuel : Nat} (hl : lookup (start + 1) = .ok root) (pre : CommitteeHistoryProof) :
    h.subtree H lookup fuel start 1 pre = .ok (h.leaf H (start + 1) root,
      if start + 1 = pre.height then { pre with committeeRoot := root } else pre) := by
  cases fuel <;> simp [subtree,hl]

lemma subtree_ok {fuel : Nat} (hn : roots ≠ []) (hf : roots.length ≤ fuel + 1)
    (hloo : ∀ i root, roots[i]? = some root → lookup (start + i + 1) = .ok root)
    (pre : CommitteeHistoryProof) :
    ∃ x after, h.subtree H lookup fuel start roots.length pre = .ok (x,after) ∧
      top (node H) (h.leavesFrom H start roots) = some x ∧
      Collects H h start roots pre after := by
  induction fuel generalizing roots start pre with
  | zero =>
    obtain ⟨root,rfl⟩ := length_eq_one_iff.mp
      (by have := length_pos_of_ne_nil hn; omega : roots.length = 1)
    exact ⟨_,_,subtree_one (hloo 0 root rfl) pre,rfl,collects_one pre⟩
  | succ fuel ih =>
    by_cases hlo : 1 < roots.length
    · obtain ⟨a,b,rfl,hab⟩ := exists_halves hlo
      have hs := halves_split hab
      obtain ⟨m,ha,hb,hl⟩ := id hab
      have hp := Nat.two_pow_pos m
      rw [length_append] at hf
      obtain ⟨x,middle,hle,hx,hc⟩ := @ih a start (ne_nil_of_length_pos (by omega))
        (by omega) (fun i root hi => hloo i root (by
          rw [getElem?_append_left (List.getElem?_eq_some_iff.mp hi).1,hi])) pre
      obtain ⟨y,after,hri,hy,hcb⟩ := @ih b (start + a.length) (ne_nil_of_length_pos hb)
        (by omega) (fun i root hi => by
          rw [Nat.add_assoc start a.length i]
          exact hloo (a.length + i) root (by
            rw [getElem?_append_right (by omega),Nat.add_sub_cancel_left,hi])) middle
      have hh : Halves (h.leavesFrom H start a)
        (h.leavesFrom H (start + a.length) b) := halves_leavesFrom hab
      obtain ⟨x',y',hx',hy',ht⟩ := top_halves (node H) hh
      obtain rfl := Option.some.inj (hx'.symm.trans hx)
      obtain rfl := Option.some.inj (hy'.symm.trans hy)
      have hr : (a ++ b).length - a.length = b.length := by
        rw [length_append,Nat.add_sub_cancel_left]
      refine ⟨_,_,?_,by rw [leavesFrom_append,ht],hc.both hab hx hy hcb⟩
      rw [subtree,if_neg (by omega)]
      simp only [hs,hr,hle,hri,ok_bind,pure_eq_ok]
    · obtain ⟨root,rfl⟩ := length_eq_one_iff.mp
        (by have := length_pos_of_ne_nil hn; omega : roots.length = 1)
      exact ⟨_,_,subtree_one (hloo 0 root rfl) pre,rfl,collects_one pre⟩

lemma Records.prove_ok (hr : Records H h roots) {i maximum : Nat}
    (hro : roots[i]? = some root) (hm : roots.length ≤ maximum)
    (hl : ∀ i root, roots[i]? = some root → lookup (i + 1) = .ok root) :
    ∃ path, h.prove H (i + 1) maximum lookup = .ok ⟨roots.length,i + 1,root,path⟩ ∧
      PathTo (node H) (h.leavesFrom H 0 roots) i path := by
  have hi := (List.getElem?_eq_some_iff.mp hro).1
  obtain ⟨x,after,hsu,hx,hc⟩ := @subtree_ok H h roots 0 lookup roots.length
    (ne_nil_of_length_pos (by omega)) (by omega)
    (fun j r hj => by rw [Nat.zero_add]; exact hl j r hj)
    ⟨roots.length,i + 1,Hash256.zero,[]⟩
  obtain ⟨hf,path,hp,hsi⟩ := hc.inside i root (by simp) hro
  refine ⟨path,?_,hp⟩
  have ha : after = ⟨roots.length,i + 1,root,path⟩ := by
    obtain ⟨es,height,committeeRoot,sibs⟩ := after
    obtain ⟨rfl,rfl,-,-⟩ := id hc
    cases hf
    cases hsi
    rfl
  have hv : i + 1 ≠ 0 ∧ i + 1 ≤ h.entries ∧ h.entries ≤ maximum := by
    rw [hr.entries]
    omega
  have hs : x = h.treeRoot H := by rw [hr.treeRoot_eq,hx,Option.getD_some]
  rw [prove,ensure_of hv,ok_bind,hr.entries,hsu,ok_bind]
  change (do ensure _ (x = h.treeRoot H); pure after) = _
  rw [ensure_of hs,ha]
  rfl

end CommitteeHistory

namespace CommitteeHistoryProof

variable {H : Hasher} {h : CommitteeHistory} {roots : List Hash256}
  {p : CommitteeHistoryProof}

section Recompute

variable {join : Hash256 → Hash256 → Hash256} {index last : Nat} {root : Hash256}

lemma skip_fuel {fuel fuel' : Nat} (hf : index ≤ fuel) (hf' : index ≤ fuel') :
    skip fuel index last = skip fuel' index last := by
  induction fuel generalizing fuel' index last with
  | zero =>
    obtain rfl : index = 0 := by omega
    cases fuel' <;> simp [skip]
  | succ fuel ih =>
    cases fuel' with
    | zero =>
      obtain rfl : index = 0 := by omega
      simp [skip]
    | succ fuel' =>
      rw [skip,skip]
      split
      · exact ih (by omega) (by omega)
      · rfl

lemma skip_even (hn : index ≠ 0) (he : index % 2 = 0) :
    skip index index last = skip (index / 2) (index / 2) (last / 2) := by
  obtain ⟨fuel,rfl⟩ := Nat.exists_eq_add_one.mpr (Nat.pos_of_ne_zero hn)
  rw [skip,if_pos ⟨hn,he⟩]
  exact skip_fuel (by omega) (by omega)

lemma skip_odd (ho : index % 2 = 1) : skip index index last = (index,last) := by
  obtain ⟨fuel,rfl⟩ := Nat.exists_eq_add_one.mpr (by omega : 0 < index)
  rw [skip,if_neg (by omega)]

lemma recompute_left (hn : last ≠ 0) (hl : index % 2 = 1 ∨ index = last) (sibling : Hash256)
    (rest : List Hash256) : recompute join (sibling :: rest) index last root =
      recompute join rest ((skip index index last).1 / 2) ((skip index index last).2 / 2)
        (join sibling root) := by
  rw [recompute,if_neg hn,if_pos hl]

lemma recompute_alone (hn : last ≠ 0) (he : last % 2 = 0) (sibs : List Hash256) :
    recompute join sibs last last root = recompute join sibs (last / 2) (last / 2) root := by
  cases sibs with
  | nil => rw [recompute,recompute,if_neg hn,if_neg (by omega)]
  | cons sibling rest =>
    rw [recompute_left hn (.inr rfl),skip_even hn he,
      recompute_left (by omega : last / 2 ≠ 0) (.inr rfl)]

/-- The loop of `verify` takes the same steps as a path, level by level. -/
lemma recompute_eq_walk (hl : index ≤ last) (siblings : List Hash256) :
    recompute join siblings index last root = walk join root index (last + 1) siblings := by
  induction last using Nat.strong_induction_on generalizing index root siblings with
  | _ last ih =>
    have hh : (last + 1 + 1) / 2 = last / 2 + 1 := by omega
    by_cases hz : last = 0
    · subst hz
      rw [walk_short (Nat.le_refl 1)]
      cases siblings <;> rfl
    by_cases ha : index = last ∧ last % 2 = 0
    · obtain ⟨rfl,he⟩ := ha
      rw [recompute_alone hz he,ih _ (by omega) (Nat.le_refl _),
        walk_alone (by omega) he (Nat.le_refl _),hh]
    · cases siblings with
      | nil => rw [recompute,if_neg hz,walk_nil (by omega) (by omega)]
      | cons sibling rest =>
        by_cases ho : index % 2 = 1
        · rw [recompute_left hz (.inl ho),skip_odd ho,walk_odd (by omega) ho,hh]
          exact ih _ (by omega) (by omega) rest
        · rw [recompute,if_neg hz,if_neg (by omega),walk_even (by omega) (by omega),hh]
          exact ih _ (by omega) (by omega) rest

end Recompute

lemma validateShape_ok {u : Unit} : p.validateShape = .ok u ↔
    (p.height ≠ 0 ∧ p.height ≤ p.entries ∧ p.siblings.length ≤ 64) ∧
      p.siblings.length = splitDepth p.entries (p.height - 1) p.entries := by
  simp only [validateShape,bind_eq_ok,ensure_eq_ok,exists_and_left,exists_const]

structure Verified (H : Hasher) (p : CommitteeHistoryProof)
    (trusted : CommitteeHistory) (context : AuthenticatedCommittee) : Prop where
  range : p.height ≠ 0 ∧ p.height ≤ p.entries ∧ p.siblings.length ≤ 64
  depth : p.siblings.length = splitDepth p.entries (p.height - 1) p.entries
  context : p.entries = trusted.entries ∧ context.chainId = trusted.chainId ∧
    context.height.toNat = p.height ∧ context.root = p.committeeRoot
  path : walk (CommitteeHistory.node H) (trusted.leaf H p.height p.committeeRoot)
    (p.height - 1) p.entries p.siblings = some (trusted.treeRoot H)

lemma verify_ok_iff {trusted : CommitteeHistory} {ctx : AuthenticatedCommittee} :
    p.verify H trusted ctx = .ok () ↔ Verified H p trusted ctx := by
  have hw : p.height ≠ 0 → p.height ≤ p.entries →
      recompute (CommitteeHistory.node H) p.siblings (p.height - 1) (p.entries - 1)
        (trusted.leaf H p.height p.committeeRoot) =
      walk (CommitteeHistory.node H) (trusted.leaf H p.height p.committeeRoot)
        (p.height - 1) p.entries p.siblings := by
    intro hn hl
    rw [recompute_eq_walk (by omega),Nat.sub_add_cancel (by omega)]
  constructor
  · intro hv
    simp only [verify,bind_eq_ok,ensure_eq_ok,okOr_eq_ok] at hv
    obtain ⟨_,hs,_,hc,root,hro,rfl⟩ := hv
    obtain ⟨hr,hd⟩ := validateShape_ok.mp (failAs_eq_ok.mp hs)
    rw [hw hr.1 hr.2.1] at hro
    exact ⟨hr,hd,hc,hro⟩
  · rintro ⟨hr,hd,hc,hp⟩
    have hs : p.validateShape = .ok () := validateShape_ok.mpr ⟨hr,hd⟩
    rw [verify,hs,failAs_ok,ok_bind,ensure_of hc,ok_bind,hw hr.1 hr.2.1,hp]
    exact ensure_of rfl

lemma verify_of_path (hr : h.Records H roots) {i : Nat} {root : Hash256}
    {path : List Hash256} (hro : roots[i]? = some root)
    (hp : PathTo (CommitteeHistory.node H) (h.leavesFrom H 0 roots) i path)
    {ctx : AuthenticatedCommittee} (hc : ctx.chainId = h.chainId)
    (hh : ctx.height.toNat = i + 1) (hco : ctx.root = root) :
    verify H ⟨roots.length,i + 1,root,path⟩ h ctx = .ok () := by
  have hi := (List.getElem?_eq_some_iff.mp hro).1
  have hle : (h.leavesFrom H 0 roots).length ≤ 2 ^ 64 := by
    rw [CommitteeHistory.length_leavesFrom]
    exact hr.bounded.le
  have hd := hp.splitDepth (Nat.le_succ (h.leavesFrom H 0 roots).length)
  rw [CommitteeHistory.length_leavesFrom] at hd
  refine verify_ok_iff.mpr ⟨⟨by simp,hi,hp.length_le hle⟩,hd.symm, ⟨hr.entries.symm,hc,hh,hco⟩,?_⟩
  obtain ⟨x,hx,hw⟩ := hp.walk
  rw [CommitteeHistory.length_leavesFrom] at hw
  have hl : x = h.leaf H (i + 1) root := by
    rw [CommitteeHistory.leavesFrom,getElem?_mapIdx,hro,Option.map_some] at hx
    rw [← Option.some.inj hx,Nat.zero_add]
  obtain ⟨t,ht⟩ : ∃ t, top (CommitteeHistory.node H) (h.leavesFrom H 0 roots) = some t :=
    top_isSome fun hn => by
      have := congrArg length hn
      rw [CommitteeHistory.length_leavesFrom,length_nil] at this
      omega
  rw [hr.treeRoot_eq,ht,Option.getD_some,← ht,← hw,hl]
  rfl

end CommitteeHistoryProof

namespace CommitteeHistory

def leafInput (h : CommitteeHistory) (height : Nat) (committee : Hash256) : Bytes :=
  domainInput (ascii "astrolune.committee.history.leaf.v1")
    (h.namespaceBytes ++ (leBytes 8 height ++ committee.1))

def nodeInput (p : Hash256 × Hash256) : Bytes :=
  domainInput (ascii "astrolune.committee.history.node.v1") (p.1.1 ++ p.2.1)

lemma leafInput_injective {h : CommitteeHistory} {height : Nat} {root root' : Hash256}
    (heq : h.leafInput height root = h.leafInput height root') : root = root' := by
  obtain ⟨-,hm⟩ := domainInput_injective (by decide) (by decide) heq
  exact Subtype.ext (append_cancel_left (append_cancel_left hm))

lemma nodeInput_injective {p q : Hash256 × Hash256} (heq : nodeInput p = nodeInput q) : p = q :=
  domainInput_pair_injective (by decide) heq

def inputs (H : Hasher) (h : CommitteeHistory) (roots : List Hash256) : List Bytes :=
  roots.mapIdx (fun i root => h.leafInput (i + 1) root) ++
    (joinedBy (node H) (h.leavesFrom H 0 roots)).map nodeInput

end CommitteeHistory

namespace CommitteeHistoryProof

def inputs (H : Hasher) (p : CommitteeHistoryProof) (trusted : CommitteeHistory) :
    List Bytes :=
  trusted.leafInput p.height p.committeeRoot ::
    (walkedBy (CommitteeHistory.node H) (trusted.leaf H p.height p.committeeRoot)
      (p.height - 1) p.entries p.siblings).map CommitteeHistory.nodeInput

lemma root_of_verify {H : Hasher} {h : CommitteeHistory} {roots : List Hash256}
    {p : CommitteeHistoryProof} {hashed : Bytes → Prop} (hr : h.Records H roots)
    (hf : CollisionFree H hashed) (hin : ∀ x ∈ h.inputs H roots, hashed x)
    (hp : ∀ x ∈ p.inputs H h, hashed x) {ctx : AuthenticatedCommittee}
    (hv : p.verify H h ctx = .ok ()) : roots[p.height - 1]? = some p.committeeRoot := by
  obtain ⟨hra,-,hc,hpa⟩ := verify_ok_iff.mp hv
  have he : p.entries = (h.leavesFrom H 0 roots).length := by
    rw [hc.1,hr.entries,CommitteeHistory.length_leavesFrom]
  have hi : p.height - 1 < (h.leavesFrom H 0 roots).length := by omega
  have hn : h.leavesFrom H 0 roots ≠ [] := ne_nil_of_length_pos (by omega)
  obtain ⟨t,ht⟩ : ∃ t, top (CommitteeHistory.node H) (h.leavesFrom H 0 roots) = some t :=
    top_isSome hn
  have hap : JoinsApart (CommitteeHistory.node H)
      (walkedBy (CommitteeHistory.node H) (h.leaf H p.height p.committeeRoot)
        (p.height - 1) p.entries p.siblings)
      (joinedBy (CommitteeHistory.node H) (h.leavesFrom H 0 roots)) := by
    intro a ha b hb hab
    refine CommitteeHistory.nodeInput_injective (hf _ _ (hp _ ?_) (hin _ ?_) hab)
    · exact mem_cons_of_mem _ (mem_map_of_mem ha)
    · exact mem_append_right _ (mem_map_of_mem hb)
  rw [hr.treeRoot_eq,ht,Option.getD_some] at hpa
  rw [he] at hpa hap
  have hl := walk_sound hn hi hpa ht hap
  rw [CommitteeHistory.leavesFrom,getElem?_mapIdx] at hl
  obtain ⟨root,hro,hh⟩ := Option.map_eq_some_iff.mp hl
  rw [Nat.zero_add,Nat.sub_add_cancel (by omega)] at hh
  have hm : h.leafInput p.height root ∈ h.inputs H roots := by
    refine mem_append_left _ (mem_of_getElem? (i := p.height - 1) ?_)
    rw [getElem?_mapIdx,hro,Option.map_some,Nat.sub_add_cancel (by omega)]
  rw [hro,CommitteeHistory.leafInput_injective (hf _ _ (hin _ hm) (hp _ mem_cons_self) hh)]

end CommitteeHistoryProof

namespace CommitteeHistory

inductive Appended (H : Hasher) (chainId : UInt32) (genesis : Hash256) :
    List Hash256 → CommitteeHistory → Prop where
  | new {h : CommitteeHistory} (hnew : CommitteeHistory.new chainId genesis = .ok h) :
      Appended H chainId genesis [] h
  | append {roots : List Hash256} {h h' : CommitteeHistory} {context : AuthenticatedCommittee}
      (hbefore : Appended H chainId genesis roots h)
      (happend : h.append H context = some (.ok h')) :
      Appended H chainId genesis (roots ++ [context.root]) h'

section Appended

variable {H : Hasher} {chainId : UInt32} {gen : Hash256} {h : CommitteeHistory}
  {roots : List Hash256}

lemma Appended.records (ha : Appended H chainId gen roots h) :
    Records H h roots ∧ h.chainId = chainId := by
  induction ha with
  | new hn =>
    refine ⟨records_new hn,?_⟩
    simp only [CommitteeHistory.new,bind_eq_ok,pure_ok_iff] at hn
    obtain ⟨_,_,rfl⟩ := hn
    rfl
  | @append roots h h' ctx hb hap ih =>
    obtain ⟨hr,hc⟩ := ih
    by_cases hne : ctx.chainId = h.chainId ∧ ctx.height.toNat = roots.length + 1
    · obtain ⟨next,ho,hre,hs,-⟩ := hr.append hne.1 hne.2
      rw [hap] at ho
      cases ho
      exact ⟨hre,hs.trans hc⟩
    · rw [hr.append_refused hne] at hap
      cases hap

lemma exists_appended (hc : chainId ≠ 0) (hg : gen ≠ Hash256.zero)
    (hl : roots.length < 2 ^ 64) : ∃ h, Appended H chainId gen roots h := by
  induction roots using reverseRecOn with
  | nil =>
    refine ⟨⟨chainId,gen,0,replicate 64 none⟩,.new ?_⟩
    rw [CommitteeHistory.new,ensure_of ⟨hc,hg⟩]
    rfl
  | append_singleton roots root ih =>
    rw [length_append,length_singleton] at hl
    obtain ⟨h,ha⟩ := ih (by omega)
    obtain ⟨hr,hch⟩ := ha.records
    have hh : (UInt64.ofNat (roots.length + 1)).toNat = roots.length + 1 := by
      rw [UInt64.toNat_ofNat']
      omega
    let context : AuthenticatedCommittee := ⟨chainId,UInt64.ofNat (roots.length + 1),root,0,[],[],[]⟩
    obtain ⟨next,ho,-⟩ := @Records.append H h roots hr context hch.symm hh
    exact ⟨next,ha.append ho⟩

end Appended

/-- Every sequence of roots can be appended. The frontier then has a peak for each digit of their
number, its root is that of the recursive tree, every height has a proof that verifies, and no
proof of any other root is accepted. -/
theorem committee_history_faithful (H : Hasher) (chainId : UInt32)
    (genesis : Hash256) (hc : chainId ≠ 0) (hg : genesis ≠ Hash256.zero) :
    (∀ roots : List Hash256, roots.length < 2 ^ 64 →
      ∃ h, Appended H chainId genesis roots h) ∧
    ∀ (roots : List Hash256) (h : CommitteeHistory), Appended H chainId genesis roots h →
      (∀ j, (∃ peak, h.frontier[j]? = some (some peak)) ↔ roots.length.testBit j = true) ∧
      h.treeRoot H = (splitTop (node H) (h.leavesFrom H 0 roots)).getD
        (domainHash H (ascii "astrolune.committee.history.empty.v1") []) ∧
      (∀ (height maximum : Nat) (root : Hash256) (lookup : Nat → Except ConsensusError Hash256),
        1 ≤ height → roots[height - 1]? = some root → roots.length ≤ maximum →
        (∀ i r, roots[i]? = some r → lookup (i + 1) = .ok r) →
        ∃ p, h.prove H height maximum lookup = .ok p ∧ p.height = height ∧
          p.committeeRoot = root ∧ ∀ context : AuthenticatedCommittee, context.chainId = chainId →
            context.height.toNat = height → context.root = root →
            p.verify H h context = .ok ()) ∧
      (∀ (p : CommitteeHistoryProof) (context : AuthenticatedCommittee),
        CollisionFree H (· ∈ h.inputs H roots ++ p.inputs H h) →
        p.verify H h context = .ok () →
        context.height.toNat = p.height ∧ roots[p.height - 1]? = some p.committeeRoot) := by
  refine ⟨fun roots hl => exists_appended hc hg hl,fun roots h ha => ?_⟩
  obtain ⟨hr,hch⟩ := ha.records
  refine ⟨fun j => ?_,?_,fun height maximum root lookup hpo hro hm hlo => ?_,
    fun p context hf hv => ⟨?_,?_⟩⟩
  · have ho := hr.peaks.occupied_iff j
    rwa [length_leavesFrom,Nat.pow_zero,Nat.div_one] at ho
  · rw [hr.treeRoot_eq,splitTop_eq]
  · obtain ⟨i,rfl⟩ := Nat.exists_eq_add_one.mpr hpo
    rw [Nat.add_sub_cancel] at hro
    obtain ⟨path,hpr,hp⟩ := hr.prove_ok hro hm hlo
    exact ⟨_,hpr,rfl,rfl,fun context hcon hh hco =>
      CommitteeHistoryProof.verify_of_path hr hro hp (hcon.trans hch.symm) hh
        hco⟩
  · exact (CommitteeHistoryProof.verify_ok_iff.mp hv).context.2.2.1
  · exact CommitteeHistoryProof.root_of_verify hr hf (fun x hx => mem_append_left _ hx)
      (fun x hx => mem_append_right _ hx) hv

namespace ThreeHeights

def origin : Hash256 := Fixed.fill 32 9

def root (n : UInt8) : Hash256 := Fixed.fill 32 n

def context (height : UInt64) (n : UInt8) : AuthenticatedCommittee :=
  ⟨7, height, root n, 0, [], [], []⟩

def start : CommitteeHistory := ⟨7, origin, 0, replicate 64 none⟩

def one : CommitteeHistory :=
  ⟨7, origin, 1, some (start.leaf residueHash 1 (root 1)) :: replicate 63 none⟩

def firstTwo : Hash256 :=
  node residueHash (start.leaf residueHash 1 (root 1)) (start.leaf residueHash 2 (root 2))

def two : CommitteeHistory := ⟨7, origin, 2, none :: some firstTwo :: replicate 62 none⟩

def three : CommitteeHistory :=
  ⟨7, origin, 3, some (start.leaf residueHash 3 (root 3)) :: some firstTwo ::
    replicate 62 none⟩

lemma appended : Appended residueHash 7 origin [root 1,root 2,root 3] three := by
  have hn : CommitteeHistory.new 7 origin = .ok start := by decide +kernel
  have ho : start.append residueHash (context 1 1) = some (.ok one) := by decide +kernel
  have htw : one.append residueHash (context 2 2) = some (.ok two) := by decide +kernel
  have ht : two.append residueHash (context 3 3) = some (.ok three) := by decide +kernel
  exact (((Appended.new hn).append ho).append htw).append ht

def last : CommitteeHistoryProof := ⟨3, 3, root 3, [firstTwo]⟩

end ThreeHeights

open ThreeHeights in
theorem committee_history_three_heights :
    Appended residueHash 7 origin [root 1, root 2, root 3] three ∧
    last.verify residueHash three (context 3 3) = .ok () ∧
    [root 1, root 2, root 3][2]? = some last.committeeRoot := by
  have hv : last.verify residueHash three (context 3 3) = .ok () := by decide +kernel
  have hfr : ∀ x ∈ three.inputs residueHash [root 1,root 2,root 3] ++
      last.inputs residueHash three, ∀ y ∈ three.inputs residueHash [root 1,root 2,root 3] ++
      last.inputs residueHash three, residueHash x = residueHash y → x = y := by
    decide +kernel
  have hf := (committee_history_faithful residueHash 7 origin (by decide) (by decide)).2
    [root 1,root 2,root 3] three appended
  exact ⟨appended,hv,
    (hf.2.2.2 last (context 3 3) (fun x y hx hy => hfr x hx y hy) hv).2⟩

end CommitteeHistory

end Astrolune.Consensus

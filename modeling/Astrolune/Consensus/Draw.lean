import Astrolune.Consensus.Rotation
import Astrolune.Lib.Sampling
import Astrolune.Types.Digest

namespace Astrolune.Consensus
open Lib Codec Crypto List

section Tickets

variable {H : Hasher} {seed : Hash256} {seat tot ticket : Nat}

def acceptTicket (total value : Nat) : Option Nat :=
  if excess (2 ^ 128) total ≤ value then some (value % total) else none

def attemptValue (H : Hasher) (seed : Hash256) (seat attempt : Nat) : Nat :=
  ticketValue (domainHash H (ascii "astrolune.vrf.draw.v1")
    (seed.1 ++ (leBytes 8 seat ++ leBytes 4 attempt)))

lemma card_acceptTicket (hp : 0 < tot) (hl : tot < 2 ^ 128) (ht : ticket < tot) :
    ((Finset.range (2 ^ 128)).filter fun value => acceptTicket tot value = some ticket).card =
      2 ^ 128 / tot := by
  have ha : ∀ value, acceptTicket tot value = some ticket ↔
      excess (2 ^ 128) tot ≤ value ∧ value % tot = ticket := fun value => by
    rw [acceptTicket]
    split
    · next hac => simp only [Option.some.injEq,hac,true_and]
    · next hr => simp only [reduceCtorEq,hr,false_and]
  simp only [ha]
  exact card_unbiased hp hl.le ht

lemma ticketValue_unique {value : Nat} (h : value < 2 ^ 128) :
    ∃! bs : Fixed 16, ∀ rest : Fixed 16, ticketValue ⟨bs.1 ++ rest.1,by simp [bs.2,rest.2]⟩ =
      value := by
  have ht : ∀ bs rest : Fixed 16, (bs.1 ++ rest.1).take 16 = bs.1 := fun bs rest => by
    rw [take_append_of_le_length bs.2.ge,take_of_length_le bs.2.le]
  refine ⟨⟨(leBytes 16 value).reverse,by simp⟩,fun rest => ?_,fun bs hb => ?_⟩
  · rw [ticketValue,ht,reverse_reverse,leNat_leBytes_of_lt h]
  · have hv := hb bs
    rw [ticketValue,ht] at hv
    have hl : bs.1.reverse.length = 16 := by rw [length_reverse,bs.2]
    have hr := leBytes_leNat bs.1.reverse
    rw [hl,hv] at hr
    exact Subtype.ext ((congrArg reverse hr).trans (reverse_reverse _)).symm

lemma tryTickets_eq {left attempt : Nat} :
    tryTickets H seed seat tot (excess (2 ^ 128) tot) left attempt =
      okOr .invalidProof ((range' attempt left).findSome? fun attempt =>
        acceptTicket tot (attemptValue H seed seat attempt)) := by
  induction left generalizing attempt with
  | zero => rfl
  | succ left ih =>
    rw [range'_succ,findSome?_cons]
    by_cases hf : excess (2 ^ 128) tot ≤ attemptValue H seed seat attempt
    · have ha : acceptTicket tot (attemptValue H seed seat attempt) =
          some (attemptValue H seed seat attempt % tot) := if_pos hf
      rw [ha]
      exact if_pos hf
    · have hn : acceptTicket tot (attemptValue H seed seat attempt) = none := if_neg hf
      rw [hn,← ih]
      exact if_neg hf

lemma drawTicket_eq (hp : 0 < tot) : drawTicket H seed seat tot =
    okOr .invalidProof ((range 256).findSome? fun attempt =>
      acceptTicket tot (attemptValue H seed seat attempt)) := by
  have hu : drawTicket H seed seat tot =
      tryTickets H seed seat tot (excess (2 ^ 128) tot) 256 0 := if_neg hp.ne'
  rw [hu,tryTickets_eq,range_eq_range']

def Exhausted (H : Hasher) (seed : Hash256) (seat total : Nat) : Prop :=
  ∀ attempt < 256, acceptTicket total (attemptValue H seed seat attempt) = none

lemma drawTicket_cases (hp : 0 < tot) :
    (∃ ticket < tot, drawTicket H seed seat tot = .ok ticket) ∨ (Exhausted H seed seat tot ∧
        drawTicket H seed seat tot = .error .invalidProof) := by
  rw [drawTicket_eq hp]
  cases hf : (range 256).findSome? fun attempt =>
      acceptTicket tot (attemptValue H seed seat attempt) with
  | none =>
    rw [findSome?_eq_none_iff] at hf
    exact .inr ⟨fun attempt ha => hf attempt (mem_range.mpr ha),rfl⟩
  | some ticket =>
    obtain ⟨attempt,-,ha⟩ := exists_of_findSome?_eq_some hf
    obtain ⟨-,ht⟩ := Option.ite_none_right_eq_some.mp ha
    cases ht
    exact .inl ⟨_,Nat.mod_lt _ hp,rfl⟩

end Tickets

section Pick

variable {pool rest : List CommitteeMember} {tot ticket i : Nat} {m : CommitteeMember}

lemma ticketIndex_eq_some {upper : Nat} (hu : upper ≤ ticket) :
    ticketIndex ticket upper pool = some i ↔ i < pool.length ∧
      upper + ((pool.take i).map (·.power)).sum ≤ ticket ∧
      ticket < upper + ((pool.take (i + 1)).map (·.power)).sum := by
  induction pool generalizing upper i with
  | nil => simp [ticketIndex]
  | cons m others ih =>
    rw [ticketIndex]
    by_cases hl : ticket < upper + m.power
    · rw [if_pos hl]
      cases i with
      | zero => simp [hl,hu]
      | succ i =>
        simp only [Option.some.injEq,take_succ_cons,map_cons,sum_cons]
        omega
    · rw [if_neg hl]
      cases i with
      | zero => simp [hl]
      | succ i =>
        simp only [Option.map_eq_some_iff,Nat.add_right_cancel_iff,exists_eq_right,
          ih (Nat.le_of_not_lt hl),take_succ_cons,map_cons,sum_cons,
          length_cons]
        omega

lemma ticketIndex_eq_some_window : ticketIndex ticket 0 pool = some i ↔
    i < pool.length ∧ ticket ∈ window (·.power) pool i := by
  rw [ticketIndex_eq_some (Nat.zero_le _),Nat.zero_add,Nat.zero_add,mem_window]

lemma ticketIndex_isSome {upper : Nat} (h : ticket < upper + (pool.map (·.power)).sum)
    (hu : upper ≤ ticket) : ∃ i, ticketIndex ticket upper pool = some i := by
  induction pool generalizing upper with
  | nil => exact absurd h (by simpa using hu)
  | cons m others ih =>
    rw [ticketIndex]
    split
    · exact ⟨0,rfl⟩
    · next hl =>
      rw [map_cons,sum_cons,← Nat.add_assoc] at h
      obtain ⟨i,hi⟩ := ih h (Nat.le_of_not_lt hl)
      exact ⟨i + 1,by rw [hi,Option.map_some]⟩

def pick (pool : List CommitteeMember) (ticket : Nat) : Option CommitteeMember :=
  (ticketIndex ticket 0 pool).bind (pool[·]?)

lemma pick_eq_some : pick pool ticket = some m ↔
    ∃ i, pool[i]? = some m ∧ ticket ∈ window (·.power) pool i := by
  rw [pick,Option.bind_eq_some_iff]
  refine exists_congr fun i => ?_
  rw [ticketIndex_eq_some_window]
  constructor
  · rintro ⟨⟨_,hw⟩,hm⟩
    exact ⟨hm,hw⟩
  · rintro ⟨hm,hw⟩
    exact ⟨⟨(List.getElem?_eq_some_iff.mp hm).1,hw⟩,hm⟩

lemma Committee.Weighed.nodup (h : Committee.Weighed pool tot) : pool.Nodup :=
  Nodup.of_map _ h.distinct

lemma Committee.Weighed.sublist (h : Committee.Weighed pool tot) (hr : rest.Sublist pool) :
    Committee.Weighed rest (rest.map (·.power)).sum where
  sum := rfl
  bounded := by
    have hl : (rest.map (·.power)).sum ≤ (pool.map (·.power)).sum := (hr.map _).sum_le_sum (by simp)
    exact (hl.trans_eq h.sum.symm).trans_lt h.bounded
  distinct := h.distinct.sublist (hr.map _)
  positive := fun m hm => h.positive m (hr.subset hm)

lemma Committee.Weighed.card_pick (h : Committee.Weighed pool tot) (hm : m ∈ pool) :
    ((Finset.range tot).filter fun ticket => pick pool ticket = some m).card = m.power := by
  obtain ⟨i,hi⟩ := mem_iff_getElem?.mp hm
  rw [← @card_window _ (·.power) pool i m hi]
  congr 1
  ext ticket
  rw [Finset.mem_filter,Finset.mem_range,pick_eq_some]
  constructor
  · rintro ⟨_,j,hj,hw⟩
    obtain ⟨hl,_⟩ := List.getElem?_eq_some_iff.mp hi
    have hs : i = j := (getElem?_inj hl h.nodup).mp (hi.trans hj.symm)
    exact hs ▸ hw
  · intro hw
    exact ⟨h.sum ▸ lt_sum_of_mem_window hw,i,hi,hw⟩

lemma Committee.Weighed.poolWeight_eq (h : Committee.Weighed pool tot) :
    poolWeight pool = .ok tot := by
  have hs : 0 + (pool.map (·.power)).sum = tot := (Nat.zero_add _).trans h.sum.symm
  have hf := foldlM_checkedAdd .invalidCommittee (hs ▸ h.bounded)
  rwa [hs,foldlM_map] at hf

lemma Committee.Weighed.total_pos (h : Committee.Weighed pool tot) (hn : pool ≠ []) :
    0 < tot := by
  obtain ⟨m,others,rfl⟩ := exists_cons_of_ne_nil hn
  have hp := h.positive m mem_cons_self
  have hs := h.sum
  rw [map_cons,sum_cons] at hs
  omega

end Pick

/-- The pool as it stands before seat `k` is drawn. -/
def remaining (pool drawn : List CommitteeMember) (k : Nat) : List CommitteeMember :=
  pool.filter (· ∉ drawn.take k)

def weightOf (pool : List CommitteeMember) : Nat := (pool.map (·.power)).sum

/-- Every seat of `drawn` went to the member its ticket picks among those not yet drawn. -/
structure FairDraw (H : Hasher) (randomness : Hash256) (seat : Nat)
    (pool drawn : List CommitteeMember) : Prop where
  distinct : drawn.Nodup
  members : ∀ m ∈ drawn, m ∈ pool
  picked : ∀ k < drawn.length, ∃ ticket < weightOf (remaining pool drawn k),
    drawTicket H randomness (seat + k) (weightOf (remaining pool drawn k)) = .ok ticket ∧
      drawn[k]? = pick (remaining pool drawn k) ticket

/-- Every seat finds an accepted attempt, whichever members are left for it. -/
def NoExhaustion (H : Hasher) (randomness : Hash256) (seats : Nat)
    (pool : List CommitteeMember) : Prop :=
  ∀ seat < seats, ∀ rest : List CommitteeMember, rest.Sublist pool → rest ≠ [] →
    ¬Exhausted H randomness seat (weightOf rest)

section Seats

variable {H : Hasher} {randomness : Hash256} {seat tot : Nat}
  {pool drawn : List CommitteeMember}

lemma remaining_zero : remaining pool drawn 0 = pool := by simp [remaining]

lemma remaining_cons {m : CommitteeMember} {k : Nat} :
    remaining pool (m :: drawn) (k + 1) = remaining (pool.filter (· ≠ m)) drawn k := by
  rw [remaining,remaining,filter_filter]
  refine filter_congr fun x _ => ?_
  simp [Bool.and_comm]

lemma FairDraw.nil : FairDraw H randomness seat pool [] := ⟨.nil,by simp,by simp⟩

lemma FairDraw.cons {m : CommitteeMember} {ticket : Nat}
    (h : FairDraw H randomness (seat + 1) (pool.filter (· ≠ m)) drawn)
    (hl : ticket < weightOf pool)
    (ht : drawTicket H randomness seat (weightOf pool) = .ok ticket)
    (hp : pick pool ticket = some m) :
    FairDraw H randomness seat pool (m :: drawn) where
  distinct := by
    refine nodup_cons.mpr ⟨fun hm => ?_,h.distinct⟩
    simpa using h.members m hm
  members := by
    intro x hx
    rcases mem_cons.mp hx with rfl | hx
    · obtain ⟨i,hi,_⟩ := pick_eq_some.mp hp
      exact mem_of_getElem? hi
    · exact (mem_filter.mp (h.members x hx)).1
  picked := by
    intro k hk
    cases k with
    | zero =>
      rw [remaining_zero]
      exact ⟨ticket,hl,ht,hp.symm⟩
    | succ k =>
      have hs : seat + (k + 1) = seat + 1 + k := by omega
      rw [remaining_cons,hs]
      exact h.picked k (Nat.lt_of_succ_lt_succ hk)

lemma drawSeats_cases {c : Suite} {left : Nat} (h : Committee.Weighed pool tot)
    (hl : left ≤ pool.length) :
    (∃ drawn, VerifiedVrfSampler.drawSeats c randomness left seat pool = .ok drawn ∧
      drawn.length = left ∧ FairDraw c.blake2s randomness seat pool drawn) ∨
    (VerifiedVrfSampler.drawSeats c randomness left seat pool = .error .invalidProof ∧
      ∃ k < left, ∃ rest, rest.Sublist pool ∧ rest ≠ [] ∧
        Exhausted c.blake2s randomness (seat + k) (weightOf rest)) := by
  induction left generalizing seat pool tot with
  | zero => exact .inl ⟨[],rfl,rfl,.nil⟩
  | succ left ih =>
    have hn : pool ≠ [] := by
      rintro rfl
      exact absurd hl (Nat.not_succ_le_zero left)
    have hw : tot = weightOf pool := h.sum
    rw [VerifiedVrfSampler.drawSeats,h.poolWeight_eq,ok_bind]
    obtain ⟨ticket,hlt,ht⟩ | ⟨hex,her⟩ :=
      @drawTicket_cases c.blake2s randomness seat tot (h.total_pos hn)
    · obtain ⟨i,hi⟩ := @ticketIndex_isSome pool ticket 0
        (by rw [Nat.zero_add,← h.sum]; exact hlt) (Nat.zero_le _)
      have hb := (ticketIndex_eq_some_window.mp hi).1
      have hm : pool[i]? = some pool[i] := getElem?_eq_getElem hb
      have he : pool.eraseIdx i = pool.filter (· ≠ pool[i]) := by
        rw [← h.nodup.erase_getElem i hb,h.nodup.erase_eq_filter]
        exact filter_congr fun x _ => by by_cases hx : x = pool[i] <;> simp [hx]
      have hp : pick pool ticket = some pool[i] := by rw [pick,hi,Option.bind_some,hm]
      have hsu : (pool.filter (· ≠ pool[i])).Sublist pool := filter_sublist
      have hlen : left ≤ (pool.filter (· ≠ pool[i])).length := by
        rw [← he,length_eraseIdx_of_lt hb]
        exact Nat.le_sub_one_of_lt hl
      rw [ht,ok_bind,hi]
      simp only [okOr,ok_bind,hm,he]
      obtain ⟨drawn,hd,hle,hfa⟩ | ⟨hf,k,hk,rest,hr,hso,hex⟩ := @ih (seat + 1) _ _ (h.sublist hsu) hlen
      · refine .inl ⟨pool[i] :: drawn,by rw [hd]; rfl,by rw [length_cons,hle],?_⟩
        rw [hw] at ht hlt
        exact hfa.cons hlt ht hp
      · refine .inr ⟨by rw [hf]; rfl,k + 1,Nat.succ_lt_succ hk,rest,hr.trans hsu,hso,?_⟩
        have hs : seat + (k + 1) = seat + 1 + k := by omega
        rwa [hs]
    · rw [her]
      exact .inr ⟨rfl,0,Nat.succ_pos left,pool,.refl pool,hn,hw ▸ hex⟩

end Seats

/-- The weights that `new` and `with_policy_weights` have collected so far, with their sum. -/
structure Collects (acc : OrderedMap ValidatorId Nat × Nat) : Prop where
  sum : acc.2 = acc.1.total fun _ weight => weight
  bounded : acc.2 < 2 ^ 128
  positive : ∀ e ∈ acc.1.entries, e.2 ≠ 0

namespace Collects

variable {acc : OrderedMap ValidatorId Nat × Nat} {id : ValidatorId} {wt tot : Nat}

lemma empty : Collects (.empty,0) := ⟨rfl,by decide,by simp [OrderedMap.empty]⟩

lemma insert (h : Collects acc) (ha : acc.1.get id = none) (hp : wt ≠ 0)
    (had : checkedAdd128 acc.2 wt = some tot) : Collects (acc.1.insert id wt,tot) := by
  obtain ⟨rfl,hf⟩ := checkedAdd128_eq_some.mp had
  refine ⟨?_,hf,fun e he => ?_⟩
  · have ht := acc.1.total_insert (fun _ wt => wt) id wt
    rw [ha,Option.elim_none,Nat.add_zero] at ht
    rw [h.sum,ht]
  · rcases OrderedMap.mem_insertEntry he with rfl | he
    · exact hp
    · exact h.positive e he

lemma weighed (h : Collects acc) :
    Committee.Weighed (acc.1.entries.map fun e => ⟨e.1,e.2⟩) acc.2 where
  sum := by
    rw [h.sum,OrderedMap.total,map_map]
    rfl
  bounded := h.bounded
  distinct := by
    rw [map_map]
    exact pairwise_map.mpr (acc.1.sorted.imp fun hl => hl.ne)
  positive := by
    intro m hm
    obtain ⟨e,he,rfl⟩ := mem_map.mp hm
    exact h.positive e he

end Collects

namespace VerifiedVrfSampler

variable {c : Suite} {s : VerifiedVrfSampler} {tot : Nat}

inductive Built (c : Suite) : VerifiedVrfSampler → Prop
  | new {input : VrfInput} {roster : List VrfValidator} {candidates : List Candidate}
      {s : VerifiedVrfSampler} : new c input roster candidates = .ok s → Built c s
  | reweighed {verified s : VerifiedVrfSampler} {roster : List VrfValidator} :
      Built c verified → verified.withPolicyWeights c roster = .ok s → Built c s

lemma Built.weighed (h : Built c s) : ∃ tot, Committee.Weighed s.members tot := by
  cases h with
  | new h =>
    simp only [VerifiedVrfSampler.new,bind_eq_ok,pure_ok_iff] at h
    obtain ⟨_,_,acc,hf,_,_,rfl⟩ := h
    refine ⟨acc.2,Collects.weighed (foldlM_preserves (P := Collects) ?_ .empty hf)⟩
    intro acc member acc' _ hac hs
    simp only [registerRoster,bind_eq_ok,ensure_eq_ok,okOr_eq_ok,pure_ok_iff] at hs
    obtain ⟨_,_,_,⟨hp,ha⟩,_,had,rfl⟩ := hs
    exact hac.insert ha hp had
  | reweighed _ h =>
    simp only [withPolicyWeights,bind_eq_ok,pure_ok_iff] at h
    obtain ⟨acc,hf,_,_,rfl⟩ := h
    refine ⟨acc.2,Collects.weighed (foldlM_preserves (P := Collects) ?_ .empty hf)⟩
    intro acc member acc' _ hac hs
    simp only [reweigh,bind_eq_ok,ensure_eq_ok,okOr_eq_ok,pure_ok_iff] at hs
    obtain ⟨_,⟨_,hp,ha⟩,_,had,rfl⟩ := hs
    exact hac.insert ha hp had

variable {count : Nat} {drawn members retained : List CommitteeMember}

lemma draw_cases {pool : List CommitteeMember} (h : Committee.Weighed pool tot)
    (hco : count ≤ pool.length) :
    (∃ drawn, s.draw c pool count = .ok drawn ∧ drawn.length = count ∧
      FairDraw c.blake2s s.randomness 0 pool drawn) ∨
    (s.draw c pool count = .error .invalidProof ∧
      ¬NoExhaustion c.blake2s s.randomness count pool) := by
  rw [draw,ensure_of hco,ok_bind]
  refine (@drawSeats_cases s.randomness 0 tot pool c count h hco).imp_right ?_
  rintro ⟨he,seat,hs,rest,hr,hn,hex⟩
  rw [Nat.zero_add] at hex
  exact ⟨he,fun hno => hno seat hs rest hr hn hex⟩

lemma draw_ok {pool : List CommitteeMember} (h : Committee.Weighed pool tot)
    (hd : s.draw c pool count = .ok drawn) :
    drawn.length = count ∧ FairDraw c.blake2s s.randomness 0 pool drawn := by
  have hc : count ≤ pool.length := by
    simp only [draw,bind_eq_ok,ensure_eq_ok] at hd
    obtain ⟨_,hc,_⟩ := hd
    exact hc
  obtain ⟨fd,hfo,hl,hf⟩ | ⟨he,_⟩ := @draw_cases c s tot count pool h hc
  · cases hfo.symm.trans hd
    exact ⟨hl,hf⟩
  · cases he.symm.trans hd

lemma join_distinct {seed : Hash256} (h : Committee.Weighed members tot)
    (hr : (retained.map (·.id)).Nodup)
    (hf : FairDraw c.blake2s seed 0 (members.filter fun m => m.id ∉ retained.map (·.id)) drawn) :
    ((retained ++ drawn).map (·.id)).Nodup := by
  have hin : ∀ x ∈ drawn, ∀ y ∈ drawn, x.id = y.id → x = y := fun x hx y hy =>
    inj_on_of_nodup_map h.distinct (mem_filter.mp (hf.members x hx)).1
      (mem_filter.mp (hf.members y hy)).1
  rw [map_append]
  refine hr.append (Nodup.map_on hin hf.distinct) fun id hi hd => ?_
  obtain ⟨m,hm,rfl⟩ := mem_map.mp hd
  have ho := (mem_filter.mp (hf.members m hm)).2
  exact absurd hi (of_decide_eq_true ho)

lemma id_of_find {id : ValidatorId} {m : CommitteeMember} (h : members.find? (·.id = id) = some m) :
    m.id = id := by
  have hi := find?_some h
  simpa using hi

variable {old : List CommitteeMember} {cur : Committee}

lemma ids_of_retainSeat (h : old.mapM s.retainSeat = .ok retained) :
    retained.map (·.id) = old.map (·.id) ∧ ∀ m ∈ retained, m ∈ s.members := by
  have ha := forall₂_of_mapM h
  clear h
  induction ha with
  | nil => simp
  | cons hs _ ih =>
    have hf := okOr_eq_ok.mp hs
    refine ⟨?_,forall_mem_cons.mpr ⟨mem_of_find?_eq_some hf,ih.2⟩⟩
    rw [map_cons,map_cons,ih.1,id_of_find hf]

lemma ids_of_retained : (old.filterMap fun o => members.find? (·.id = o.id)).map (·.id) =
      (old.map (·.id)).filter (· ∈ members.map (·.id)) := by
  induction old with
  | nil => rfl
  | cons o rest ih =>
    rw [map_cons]
    cases hf : members.find? (·.id = o.id) with
    | none =>
      have ha : o.id ∉ members.map (·.id) := by
        intro hme
        obtain ⟨m,hm,hi⟩ := mem_map.mp hme
        simpa [hi] using find?_eq_none.mp hf m hm
      rw [filterMap_cons,hf,filter_cons_of_neg (by simpa using ha),← ih]
    | some m =>
      have hi : m.id = o.id := id_of_find hf
      have hme : o.id ∈ members.map (·.id) := hi ▸ mem_map_of_mem (mem_of_find?_eq_some hf)
      rw [filterMap_cons,hf,filter_cons_of_pos (by simpa using hme),← ih,← hi]
      rfl

structure Rotated (s : VerifiedVrfSampler) (kept : List ValidatorId) (size : Nat)
    (committee : Committee) : Prop where
  height : committee.height = s.input.height
  size : committee.members.length = size
  distinct : (committee.members.map (·.id)).Nodup
  eligible : ∀ m ∈ committee.members, m ∈ s.members
  order : (committee.members.take kept.length).map (·.id) = kept

lemma Rotated.of_join {kept : List ValidatorId} (h : Committee.Weighed s.members tot)
    (hk : retained.map (·.id) = kept) (hn : kept.Nodup)
    (hr : ∀ m ∈ retained, m ∈ s.members)
    (hd : s.draw c (s.members.filter fun m => m.id ∉ retained.map (·.id)) count = .ok drawn) :
    s.Rotated kept (kept.length + count) { height := s.input.height, members := retained ++ drawn } := by
  obtain ⟨hle,hf⟩ := draw_ok (h.sublist filter_sublist) hd
  have hl : kept.length = retained.length := by rw [← hk,length_map]
  refine ⟨rfl,?_,join_distinct h (hk ▸ hn) hf,fun m hm => ?_,?_⟩
  · rw [length_append,hle,hl]
  · rcases mem_append.mp hm with hm | hm
    · exact hr m hm
    · exact (mem_filter.mp (hf.members m hm)).1
  · rw [hl,take_left,hk]

/-- The committee passes the check of its powers: its seats are distinct members of the pool. -/
lemma Rotated.totalPower {kept : List ValidatorId} {size : Nat} {com : Committee}
    (hr : s.Rotated kept size com) (h : Committee.Weighed s.members tot) (hn : size ≠ 0)
    (hl : size ≤ maxCommitteeMembers) : com.totalPower = .ok (weightOf com.members) := by
  have hno : com.members.Nodup := Nodup.of_map _ hr.distinct
  obtain ⟨l,hp,hs⟩ := hno.subperm hr.eligible
  have hw := h.sublist hs
  have hm : Committee.Weighed com.members (weightOf com.members) :=
    { sum := rfl
      bounded := (hp.map (·.power)).sum_eq.symm.trans_lt hw.bounded
      distinct := hr.distinct
      positive := fun m hm => h.positive m (hr.eligible m hm) }
  refine hm.totalPower (fun he => hn ?_) (hr.size.trans_le hl)
  rw [← hr.size,he,length_nil]

/-- The members outside the retained seats are at least as many as the seats left to fill. -/
lemma length_outside (h : Committee.Weighed members tot) :
    members.length ≤ retained.length + (members.filter fun m => m.id ∉ retained.map (·.id)).length := by
  have hsp := length_eq_length_filter_add (l := members) fun m => m.id ∈ retained.map (·.id)
  have hin : (members.filter fun m => m.id ∈ retained.map (·.id)).length ≤ retained.length := by
    have hsu : ((members.filter fun m => m.id ∈ retained.map (·.id)).map (·.id)) ⊆
        retained.map (·.id) := by
      intro id hi
      obtain ⟨m,hm,rfl⟩ := mem_map.mp hi
      exact of_decide_eq_true (mem_filter.mp hm).2
    have hl := (Nodup.subperm (h.distinct.sublist (filter_sublist.map _)) hsu).length_le
    simpa only [length_map] using hl
  have hno : (members.filter fun m => m.id ∉ retained.map (·.id)) =
      members.filter fun m => !decide (m.id ∈ retained.map (·.id)) :=
    filter_congr fun m _ => decide_not
  rw [hno]
  omega

lemma join_cases {kept : List ValidatorId} {size : Nat} (h : Committee.Weighed s.members tot)
    (hk : retained.map (·.id) = kept) (hn : kept.Nodup) (hr : ∀ m ∈ retained, m ∈ s.members)
    (hs : retained.length + count = size) (hf : size ≤ s.members.length) :
    (∃ drawn, s.draw c (s.members.filter fun m => m.id ∉ retained.map (·.id)) count = .ok drawn ∧
      s.Rotated kept size { height := s.input.height, members := retained ++ drawn }) ∨
    (s.draw c (s.members.filter fun m => m.id ∉ retained.map (·.id)) count =
      .error .invalidProof ∧ ¬NoExhaustion c.blake2s s.randomness size s.members) := by
  have ho := @length_outside tot s.members retained h
  have hl : retained.length = kept.length := by rw [← hk,length_map]
  obtain ⟨drawn,hd,_,_⟩ | ⟨he,hex⟩ :=
    @draw_cases c s _ count _ (h.sublist (filter_sublist (p := fun m => m.id ∉ retained.map (·.id))))
      (by omega)
  · refine .inl ⟨drawn,hd,?_⟩
    have hro := Rotated.of_join h hk hn hr hd
    rwa [← hl,hs] at hro
  · refine .inr ⟨he,fun hno => hex fun seat hse rest hre => ?_⟩
    exact hno seat (by omega) rest (hre.trans filter_sublist)

lemma nodup_staying {power : Nat} (hp : cur.totalPower = .ok power) :
    ((cur.members.drop count).map (·.id)).Nodup :=
  (Committee.totalPower_ok hp).1.distinct.sublist ((drop_sublist _ _).map _)

lemma exists_mapM_retainSeat {l : List CommitteeMember} (h : ∀ m ∈ l, m.id ∈ s.members.map (·.id)) :
    ∃ retained, l.mapM s.retainSeat = .ok retained := by
  refine exists_mapM.mpr fun old ho => ?_
  obtain ⟨m,hm,hi⟩ := mem_map.mp (h old ho)
  cases hfi : s.members.find? (·.id = old.id) with
  | none => exact absurd hi (by simpa using find?_eq_none.mp hfi m hm)
  | some m' => exact ⟨m',by rw [retainSeat,hfi]; rfl⟩

lemma rotate_ok {com : Committee} (h : Committee.Weighed s.members tot)
    (hro : s.rotate c cur count = .ok com) :
    s.Rotated ((cur.members.drop count).map (·.id)) cur.members.length com := by
  simp only [rotate,bind_eq_ok,ensure_eq_ok,pure_ok_iff] at hro
  obtain ⟨_,hp,_,⟨_,_,hc⟩,retained,hr,drawn,hdr,_,_,rfl⟩ := hro
  obtain ⟨hi,hm⟩ := ids_of_retainSeat hr
  have hrot := Rotated.of_join h hi (nodup_staying hp) hm hdr
  rwa [length_map,length_drop,Nat.sub_add_cancel hc] at hrot

lemma rotate_cases {power : Nat} (h : Committee.Weighed s.members tot)
    (hpo : cur.totalPower = .ok power) (hro : s.input.role = .committee)
    (hh : cur.height.toNat + 1 = s.input.height.toNat) (hc : count ≤ cur.members.length)
    (hk : ∀ m ∈ cur.members.drop count, m.id ∈ s.members.map (·.id))
    (hf : cur.members.length ≤ s.members.length) :
    (∃ com, s.rotate c cur count = .ok com ∧
      s.Rotated ((cur.members.drop count).map (·.id)) cur.members.length com) ∨
    (s.rotate c cur count = .error .invalidProof ∧
      ¬NoExhaustion c.blake2s s.randomness cur.members.length s.members) := by
  obtain ⟨retained,hr⟩ := exists_mapM_retainSeat hk
  obtain ⟨hi,hm⟩ := ids_of_retainSeat hr
  have hn : cur.members.length ≠ 0 := by
    obtain ⟨_,hne,-⟩ := bind_eq_ok.mp hpo
    exact fun h0 => (ensure_eq_ok.mp hne).1 (length_eq_zero_iff.mp h0)
  have hle : retained.length + count = cur.members.length := by
    have hl := congrArg length hi
    rw [length_map,length_map,length_drop] at hl
    omega
  simp only [rotate,hpo,ok_bind,ensure_of (show s.input.role = .committee ∧
    cur.height.toNat + 1 = s.input.height.toNat ∧ count ≤ cur.members.length from ⟨hro,hh,hc⟩),hr]
  obtain ⟨drawn,hdr,hrot⟩ | ⟨he,hex⟩ := @join_cases c s tot count retained _ _
    h hi (nodup_staying hpo) hm hle hf
  · exact .inl ⟨_,by rw [hdr,ok_bind,hrot.totalPower h hn (Committee.totalPower_ok hpo).2]; rfl,
      hrot⟩
  · exact .inr ⟨by rw [he]; rfl,hex⟩

lemma rotateEligible_cases {target : Nat} {power : Nat}
    (h : Committee.Weighed s.members tot) (hpo : cur.totalPower = .ok power)
    (hro : s.input.role = .committee) (hh : cur.height.toNat + 1 = s.input.height.toNat)
    (ht : target ≠ 0) (hfit : target ≤ s.members.length) (hc : count ≤ target) :
    (∃ com, s.rotateEligible c cur target count = .ok com ∧
      s.Rotated (if cur.members.length = target then
          ((cur.members.drop count).map (·.id)).filter (· ∈ s.members.map (·.id)) else [])
        target com) ∨
    (s.rotateEligible c cur target count = .error .invalidProof ∧
      ¬NoExhaustion c.blake2s s.randomness target s.members) := by
  simp only [rotateEligible,hpo,ok_bind,
    ensure_of (show s.input.role = .committee ∧ cur.height.toNat + 1 = s.input.height.toNat ∧
      target ≠ 0 ∧ target ≤ s.members.length ∧ count ≤ target from ⟨hro,hh,ht,hfit,hc⟩)]
  by_cases hs : cur.members.length = target
  · rw [if_neg (not_not.mpr hs),if_pos hs]
    set retained := (cur.members.drop count).filterMap fun old => s.members.find? (·.id = old.id)
      with hr
    have hid : retained.map (·.id) =
        ((cur.members.drop count).map (·.id)).filter (· ∈ s.members.map (·.id)) := ids_of_retained
    have hn : (((cur.members.drop count).map (·.id)).filter (· ∈ s.members.map (·.id))).Nodup :=
      (nodup_staying hpo).filter _
    have hme : ∀ m ∈ retained, m ∈ s.members := by
      intro m hm
      obtain ⟨_,_,hfi⟩ := mem_filterMap.mp hm
      exact mem_of_find?_eq_some hfi
    have hle : retained.length ≤ target := by
      refine (length_filterMap_le _ _).trans ?_
      rw [length_drop,hs]
      exact Nat.sub_le _ _
    obtain ⟨drawn,hd,hrot⟩ | ⟨he,hex⟩ := @join_cases c s tot (target - retained.length) retained _ _
      h hid hn hme (Nat.add_sub_cancel' hle) hfit
    · exact .inl ⟨_,by rw [hd]; rfl,hrot⟩
    · exact .inr ⟨by rw [he]; rfl,hex⟩
  · rw [if_pos hs,if_neg hs,select,ensure_of ⟨hro,ht,hfit⟩,ok_bind]
    obtain ⟨drawn,hd,hlen,hf⟩ | ⟨he,hex⟩ := @draw_cases c s _ _ _ h hfit
    · refine .inl ⟨⟨s.input.height,drawn⟩,by rw [hd]; rfl,rfl,hlen,?_,hf.members,rfl⟩
      exact Nodup.map_on (fun x hx y hy => inj_on_of_nodup_map h.distinct
        (hf.members x hx) (hf.members y hy)) hf.distinct
    · exact .inr ⟨by rw [he]; rfl,hex⟩

end VerifiedVrfSampler

/-- Tickets are unbiased: a drawn ticket is that of the first attempt that is accepted, and every
ticket is accepted equally often. Each draw follows the weights of the members not yet drawn, and
rotations fill the seats they are asked for. The only failure left is that all 256 attempts for a
seat are rejected. -/
theorem weighted_sampling_exact (c : Suite) :
    (∀ total, 0 < total → total < 2 ^ 128 → (∀ ticket < total,
      ((Finset.range (2 ^ 128)).filter fun value => acceptTicket total value = some ticket).card =
        2 ^ 128 / total) ∧
      ∀ seed seat, drawTicket c.blake2s seed seat total =
        okOr .invalidProof ((range 256).findSome? fun attempt =>
          acceptTicket total (attemptValue c.blake2s seed seat attempt))) ∧
    (∀ value < 2 ^ 128, ∃! bytes : Fixed 16, ∀ rest : Fixed 16,
      ticketValue ⟨bytes.1 ++ rest.1, by simp [bytes.2, rest.2]⟩ = value) ∧
    (∀ (s : VerifiedVrfSampler) pool total count, Committee.Weighed pool total → count ≤ pool.length →
      ((∃ drawn, s.draw c pool count = .ok drawn ∧ drawn.length = count ∧
          FairDraw c.blake2s s.randomness 0 pool drawn) ∨
        (s.draw c pool count = .error .invalidProof ∧
          ¬NoExhaustion c.blake2s s.randomness count pool)) ∧
      ∀ rest : List CommitteeMember, rest.Sublist pool →
        (∀ i, weightOf (rest.take i) < 2 ^ 128) ∧ poolWeight rest = .ok (weightOf rest) ∧
        (∀ ticket < weightOf rest, ticketIndex ticket 0 rest ≠ none) ∧
        ∀ m ∈ rest, ((Finset.range (weightOf rest)).filter fun ticket =>
          pick rest ticket = some m).card = m.power) ∧
    ∀ s, VerifiedVrfSampler.Built c s → ∀ (current : Committee) power,
      current.totalPower = .ok power → s.input.role = .committee →
      current.height.toNat + 1 = s.input.height.toNat →
      (∀ count ≤ current.members.length,
        (∀ m ∈ current.members.drop count, m.id ∈ s.members.map (·.id)) →
        current.members.length ≤ s.members.length →
        (∃ committee, s.rotate c current count = .ok committee ∧
          s.Rotated ((current.members.drop count).map (·.id)) current.members.length committee) ∨
        (s.rotate c current count = .error .invalidProof ∧
          ¬NoExhaustion c.blake2s s.randomness current.members.length s.members)) ∧
      (∀ count committee, s.rotate c current count = .ok committee →
        s.Rotated ((current.members.drop count).map (·.id)) current.members.length committee) ∧
      ∀ target count, target ≠ 0 → target ≤ s.members.length → count ≤ target →
        (∃ committee, s.rotateEligible c current target count = .ok committee ∧
          s.Rotated (if current.members.length = target then
              ((current.members.drop count).map (·.id)).filter (· ∈ s.members.map (·.id)) else [])
            target committee) ∨
        (s.rotateEligible c current target count = .error .invalidProof ∧
          ¬NoExhaustion c.blake2s s.randomness target s.members) := by
  refine ⟨fun total hpo hl => ⟨fun ticket ht => card_acceptTicket hpo hl ht,
    fun seed seat => drawTicket_eq hpo⟩,fun value hv => ticketValue_unique hv,
    fun s pool total count hp hc => ?_,fun s hbu current power hpo hro hh => ?_⟩
  · refine ⟨VerifiedVrfSampler.draw_cases hp hc,fun rest hr => ?_⟩
    have hw := hp.sublist hr
    refine ⟨fun i => (hw.sublist (take_sublist i rest)).bounded,hw.poolWeight_eq,
      fun ticket ht => ?_,fun m hm => hw.card_pick hm⟩
    have hb : ticket < 0 + (rest.map (·.power)).sum := by rwa [Nat.zero_add]
    obtain ⟨i,hi⟩ := ticketIndex_isSome hb (Nat.zero_le _)
    rw [hi]
    exact Option.some_ne_none i
  · obtain ⟨total,hw⟩ := hbu.weighed
    exact ⟨fun count => VerifiedVrfSampler.rotate_cases hw hpo hro hh,
      fun count committee => VerifiedVrfSampler.rotate_ok hw,
      fun target count => VerifiedVrfSampler.rotateEligible_cases hw hpo hro hh⟩

namespace HalfPower

def suite : Suite where
  ed25519Verify _ _ _ := true
  strongKey _ := true
  blake2s := residueHash
  verifyEcvrf _ _ _ := none
  canonicalProof _ := true

def member (n : UInt8) (power : Nat) : CommitteeMember := ⟨Fixed.fill 32 n, power⟩

def sampler (members : List CommitteeMember) : VerifiedVrfSampler where
  input := ⟨7, Fixed.fill 32 1, 1, 2, Fixed.fill 32 1, 0, .committee⟩
  members
  randomness := Hash256.zero

def heavy : VerifiedVrfSampler := sampler [member 1 (2 ^ 127 + 1)]

def left : VerifiedVrfSampler := sampler [member 1 3, member 2 1, member 3 2]

def current : Committee := ⟨1, [member 1 3, member 4 5]⟩

lemma weighed : Committee.Weighed left.members 6 := ⟨rfl,by decide,by decide,by decide⟩

end HalfPower

open HalfPower in
/-- Just over half of all values give a ticket below `2 ^ 127 + 1`, and a hash whose leading half
is the same for all attempts of a seat can miss them. A seat whose holder left the roster is not
retained, whatever the hash. -/
theorem draw_of_valid_pool_fails : (Committee.Weighed heavy.members (2 ^ 127 + 1) ∧
      heavy.draw suite heavy.members 1 = .error .invalidProof) ∧
    current.totalPower = .ok 8 ∧ ∀ c, left.rotate c current 1 = .error .invalidCommittee := by
  refine ⟨⟨⟨rfl,by decide,by decide,by decide⟩,by decide +kernel⟩,by decide,fun c => rfl⟩

open HalfPower in
theorem weighted_sampling_of_three :
    ((Finset.range (2 ^ 128)).filter fun value => acceptTicket 3 value = some 2).card = 2 ^ 128 / 3 ∧
      ((Finset.range (weightOf left.members)).filter fun ticket =>
        pick left.members ticket = some (member 3 2)).card = 2 :=
  ⟨((weighted_sampling_exact suite).1 3 (by decide) (by decide)).1 2 (by decide),
    (((weighted_sampling_exact suite).2.2.1 left left.members 6 2 weighed (by decide)).2
      left.members (.refl _)).2.2.2 (member 3 2) (by decide)⟩

end Astrolune.Consensus

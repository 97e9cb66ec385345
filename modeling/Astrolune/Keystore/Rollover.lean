import Mathlib.Data.Fin.VecNotation
import Astrolune.Keystore.Record

namespace Astrolune.Keystore
open Lib Codec List Function

/-- Retained prefix decisions. Irreducible, so that no proof counts up to it. -/
@[irreducible] def maxJournalRecords : Nat := 100000
def journalHeaderBytes : Nat := 108
def maxProtectedJournalBytes : Nat := journalHeaderBytes + protectedRecordBytes * maxJournalRecords

instance neZeroTwo : NeZero 2 := ⟨by decide⟩

structure Watermark where
  sequence : Nat
  position : SigningPosition
  message : Hash256
  safety : SigningSafety
  deriving DecidableEq

/-- Two alternating protected watermarks, bound to the prefix tip by `anchor`. -/
@[ext] structure Rollover where
  anchor : Hash256
  slots : Fin 2 → Watermark

namespace Rollover

def magic : Bytes := ascii "ALSR0001"
def extensionHeaderBytes : Nat := 40
def extensionBytes : Nat := extensionHeaderBytes + 2 * protectedRecordBytes

def latest (r : Rollover) : Watermark :=
  if (r.slots 1).sequence < (r.slots 0).sequence then r.slots 0 else r.slots 1

/-- The watermark one sequence behind; absent while both slots repeat the baseline. -/
def older (r : Rollover) : Option Watermark :=
  if (r.slots 0).sequence = (r.slots 1).sequence then none
  else if (r.slots 0).sequence < (r.slots 1).sequence then some (r.slots 0) else some (r.slots 1)

def slot (sequence : Nat) : Fin 2 :=
  if (sequence - maxJournalRecords - 1) % 2 = 0 then 0 else 1

def slotOffset (slot : Fin 2) : Nat :=
  maxProtectedJournalBytes + extensionHeaderBytes + slot.val * protectedRecordBytes

def publish (r : Rollover) (slot : Fin 2) (w : Watermark) : Rollover :=
  { r with slots := update r.slots slot w }

section
variable (H : Hasher)

def new (tip : Hash256) (last : Option (SigningPosition × Hash256))
    (safety : Option SigningSafety) : Except KeystoreError Rollover := do
  let (position, message) ← okOr .invalidJournal last
  let safety ← okOr .invalidJournal safety
  return ⟨domainHash H (ascii "astrolune.signing.rollover.v1") tip.1,
    fun _ => ⟨maxJournalRecords, position, message, safety⟩⟩

def binding (anchor : Hash256) (slot : Fin 2) : Hash256 :=
  domainHash H (ascii "astrolune.signing.rollover.slot.v1")
    (anchor.1 ++ [UInt8.ofNat slot.val])

def encodeSlot (r : Rollover) (slot : Fin 2) (w : Watermark) : Bytes :=
  protectedRecord H w.sequence w.position w.message (binding H r.anchor slot) w.safety

def encode (r : Rollover) : Bytes :=
  magic ++ (r.anchor.1 ++ (r.encodeSlot H 0 (r.slots 0) ++ r.encodeSlot H 1 (r.slots 1)))

def slotBytes (bytes : Bytes) (slot : Fin 2) : Bytes :=
  (bytes.drop (extensionHeaderBytes + slot.val * protectedRecordBytes)).take protectedRecordBytes

/-- One turn of the slot loop of `Rollover::decode`. -/
def decodeSlot (anchor : Hash256) (baseline : Watermark) (slot : Fin 2) (entry : Bytes) :
    Except KeystoreError Watermark := do
  let sequence := leNat (entry.take 8)
  let decoded ← decodeEntry H entry sequence (binding H anchor slot) true
  let safety ← okOr .invalidJournal decoded.safety
  let watermark : Watermark := ⟨sequence, decoded.position, decoded.message, safety⟩
  ensure .invalidJournal (¬(sequence < maxJournalRecords ∨
    (sequence = maxJournalRecords ∧ watermark ≠ baseline) ∨
    (maxJournalRecords < sequence ∧
      (Rollover.slot sequence ≠ slot ∨ decoded.position ≤ baseline.position))))
  failAs .invalidJournal
    (validateSafety decoded.position safety (some (baseline.position, baseline.safety)))
  return watermark

/-- The pair checks of `Rollover::decode` once the older slot is known. -/
def checkStep (older newer : Watermark) : Except KeystoreError Unit := do
  ensure .invalidJournal (checkedAdd64 older.sequence 1 = some newer.sequence ∧
    older.position < newer.position)
  failAs .invalidJournal
    (validateSafety newer.position newer.safety (some (older.position, older.safety)))

/-- The check that ends `Rollover::decode`: repeated baseline, or one step apart. -/
def checkOrder (baseline a b : Watermark) : Except KeystoreError Unit :=
  if a.sequence = b.sequence then ensure .invalidJournal (a = baseline ∧ b = baseline)
  else if a.sequence < b.sequence then checkStep a b
  else checkStep b a

def decode (tip : Hash256) (last : Option (SigningPosition × Hash256))
    (safety : Option SigningSafety) (bytes : Bytes) : Except KeystoreError Rollover := do
  let result ← new H tip last safety
  let baseline := result.latest
  ensure .invalidJournal (bytes.length = extensionBytes ∧ bytes.take 8 = magic ∧
    (bytes.drop 8).take 32 = result.anchor.1)
  let a ← decodeSlot H result.anchor baseline 0 (slotBytes bytes 0)
  let b ← decodeSlot H result.anchor baseline 1 (slotBytes bytes 1)
  checkOrder baseline a b
  return { result with slots := ![a, b] }

def prepare (r : Rollover) (sequence : Nat) (position : SigningPosition) (message : Hash256)
    (safety : SigningSafety) : Except KeystoreError (Fin 2 × Bytes) := do
  let latest := r.latest
  ensure .invalidJournal (checkedAdd64 latest.sequence 1 = some sequence ∧
    latest.position < position)
  validateSafety position safety (some (latest.position, latest.safety))
  let slot := slot sequence
  return (slot, r.encodeSlot H slot ⟨sequence, position, message, safety⟩)

end
/-- What the slot loop accepts in one slot over a given baseline. -/
structure Fits (baseline : Watermark) (slot : Fin 2) (w : Watermark) : Prop where
  phase : w.position.phase ≤ precommitPhase
  bounded : w.sequence < 2 ^ 64
  place : w = baseline ∨ (maxJournalRecords < w.sequence ∧ Rollover.slot w.sequence = slot ∧
    baseline.position < w.position)
  safety : validateSafety w.position w.safety (some (baseline.position, baseline.safety)) = .ok ()

/-- `newer` is the decision right after `older`. -/
structure Steps (older newer : Watermark) : Prop where
  sequence : newer.sequence = older.sequence + 1
  bounded : newer.sequence < 2 ^ 64
  position : older.position < newer.position
  safety : validateSafety newer.position newer.safety (some (older.position, older.safety)) = .ok ()

def Ordered (baseline a b : Watermark) : Prop :=
  (a = baseline ∧ b = baseline) ∨ Steps a b ∨ Steps b a

structure Valid (anchor : Hash256) (baseline : Watermark) (r : Rollover) : Prop where
  anchor : r.anchor = anchor
  prefixEnd : baseline.sequence = maxJournalRecords
  fits : ∀ s, Fits baseline s (r.slots s)
  order : Ordered baseline (r.slots 0) (r.slots 1)

lemma checkStep_ok {older newer : Watermark} :
    checkStep older newer = .ok () ↔ Steps older newer := by
  rw [checkStep,bind_eq_ok]
  constructor
  · rintro ⟨_,he,hv⟩
    obtain ⟨hs,hp⟩ := ensure_eq_ok.mp he
    obtain ⟨hs,hb⟩ := checkedAdd64_eq_some.mp hs
    exact ⟨hs,hb,hp,failAs_eq_ok.mp hv⟩
  · rintro ⟨hs,hb,hp,hv⟩
    exact ⟨(),ensure_eq_ok.mpr ⟨checkedAdd64_eq_some.mpr ⟨hs,hb⟩,hp⟩,by rw [hv]; rfl⟩

lemma checkOrder_ok {baseline a b : Watermark} :
    checkOrder baseline a b = .ok () ↔ Ordered baseline a b := by
  have hl {x y : Watermark} (h : Steps x y) : x.sequence < y.sequence := by
    rw [h.sequence]
    exact Nat.lt_succ_self _
  unfold checkOrder Ordered
  rcases lt_trichotomy a.sequence b.sequence with h | h | h
  · have hb : ¬(a = baseline ∧ b = baseline) := fun ha => h.ne (by rw [ha.1,ha.2])
    have hba : ¬Steps b a := fun hs => h.not_gt (hl hs)
    simp [h,h.ne,hb,hba,checkStep_ok]
  · have ha : ¬Steps a b := fun hs => (hl hs).ne h
    have hba : ¬Steps b a := fun hs => (hl hs).ne' h
    simp [h,ha,hba]
  · have hb : ¬(a = baseline ∧ b = baseline) := fun ha => h.ne' (by rw [ha.1,ha.2])
    have ha : ¬Steps a b := fun hs => h.not_gt (hl hs)
    simp [h.not_gt,h.ne',hb,ha,checkStep_ok]

section
variable {H : Hasher} {anchor : Hash256} {baseline : Watermark} {r : Rollover}

variable {w : Watermark} {pos : SigningPosition} {s : Fin 2}

lemma decodeSlot_fits {slot : Fin 2} {en : Bytes}
    (h : decodeSlot H anchor baseline slot en = .ok w) : Fits baseline slot w := by
  obtain ⟨decoded,hd,h⟩ := bind_eq_ok.mp h
  obtain ⟨sf,hs,h⟩ := bind_eq_ok.mp h
  obtain ⟨_,hc,h⟩ := bind_eq_ok.mp h
  obtain ⟨_,hv,h⟩ := bind_eq_ok.mp h
  cases h
  obtain ⟨⟨⟨parsed,entry'⟩,rest⟩,_,hd⟩ := bind_eq_ok.mp hd
  obtain ⟨_,he,hd⟩ := bind_eq_ok.mp hd
  cases hd
  have hp := (ensure_eq_ok.mp he).2.1
  have hbo : leNat (en.take 8) < 2 ^ 64 := by
    calc leNat (en.take 8) < 256 ^ (en.take 8).length := leNat_lt _
      _ ≤ 256 ^ 8 := Nat.pow_le_pow_right (by decide) (length_take_le 8 en)
      _ = 2 ^ 64 := by decide
  refine ⟨hp,hbo,?_,failAs_eq_ok.mp hv⟩
  have hc := ensure_eq_ok.mp hc
  simp only [not_or,not_and,not_not,not_le,ne_eq] at hc
  obtain ⟨hl,hb,hh⟩ := hc
  rcases Nat.lt_or_eq_of_le (not_lt.mp hl) with hlt | heq
  · exact .inr ⟨hlt,hh hlt⟩
  · exact .inl (hb heq.symm)

lemma encodeSlot_length (slot : Fin 2) (w : Watermark) :
    (r.encodeSlot H slot w).length = protectedRecordBytes :=
  entryBytes_length H w.sequence w.position w.message _ (some w.safety)

lemma decodeSlot_encodeSlot {slot : Fin 2} (ha : r.anchor = anchor)
    (hb : baseline.sequence = maxJournalRecords) (hw : Fits baseline slot w) :
    decodeSlot H anchor baseline slot (r.encodeSlot H slot w) = .ok w := by
  subst ha
  have hs : leNat ((r.encodeSlot H slot w).take 8) = w.sequence := by
    have hf : (r.encodeSlot H slot w).take 8 = leBytes 8 w.sequence := by
      simp only [encodeSlot,protectedRecord,recordBody,append_assoc]
      exact take_left' (leBytes_length 8 _)
    rw [hf,leNat_leBytes_of_lt (by simpa using hw.bounded)]
  have he := decodeEntry_entryBytes H w.message (binding H r.anchor slot)
    (some w.safety) hw.bounded hw.phase
  have hp : ¬(w.sequence < maxJournalRecords ∨ (w.sequence = maxJournalRecords ∧ w ≠ baseline) ∨
      (maxJournalRecords < w.sequence ∧
        (Rollover.slot w.sequence ≠ slot ∨ w.position ≤ baseline.position))) := by
    rcases hw.place with rfl | ⟨hl,hsl,hpo⟩
    · simp [hb]
    · simp [hsl,hpo.not_ge,hl.not_gt,hl.ne']
  simp only [decodeSlot,hs]
  change (decodeEntry H (entryBytes H _ _ _ _ (some w.safety)) _ _ _ >>= _) = _
  simp only [Option.isSome_some] at he
  simp only [he,ok_bind,okOr,ensure_of hp,hw.safety,failAs_ok,pure_eq_ok]

variable {tip msg : Hash256} {sf : SigningSafety}

lemma decode_ok {last : Option (SigningPosition × Hash256)}
    {sf : Option SigningSafety} {bs : Bytes}
    (h : decode H tip last sf bs = .ok r) :
    ∃ pos msg he, last = some (pos,msg) ∧ sf = some he ∧
      (∀ s, decodeSlot H r.anchor ⟨maxJournalRecords,pos,msg,he⟩ s
        (slotBytes bs s) = .ok (r.slots s)) ∧
      Valid (domainHash H (ascii "astrolune.signing.rollover.v1") tip.1)
        ⟨maxJournalRecords,pos,msg,he⟩ r := by
  obtain ⟨fresh,hn,h⟩ := bind_eq_ok.mp h
  obtain ⟨⟨pos,msg⟩,hl,hn⟩ := bind_eq_ok.mp hn
  obtain ⟨he,hh,hn⟩ := bind_eq_ok.mp hn
  cases hn
  obtain ⟨_,_,h⟩ := bind_eq_ok.mp h
  obtain ⟨a,hd,h⟩ := bind_eq_ok.mp h
  obtain ⟨b,hdb,h⟩ := bind_eq_ok.mp h
  obtain ⟨_,ho,h⟩ := bind_eq_ok.mp h
  cases h
  simp only [latest,lt_irrefl,if_false] at hd hdb ho
  refine ⟨pos,msg,he,okOr_eq_ok.mp hl,okOr_eq_ok.mp hh,?_,rfl,rfl,?_,?_⟩
  · exact Fin.forall_fin_two.mpr ⟨hd,hdb⟩
  · exact Fin.forall_fin_two.mpr ⟨decodeSlot_fits hd,decodeSlot_fits hdb⟩
  · exact checkOrder_ok.mp ho

lemma encode_length : (r.encode H).length = extensionBytes := by
  simp [encode,encodeSlot_length,r.anchor.2,magic,ascii,extensionBytes,extensionHeaderBytes,
    protectedRecordBytes]

lemma slotBytes_encode : ∀ s, slotBytes (r.encode H) s = r.encodeSlot H s (r.slots s) := by
  have hm : (magic ++ r.anchor.1).length = extensionHeaderBytes := by
    simp [magic,ascii,r.anchor.2,extensionHeaderBytes]
  have hl (t : Fin 2) (v : Watermark) : (r.encodeSlot H t v).length =
      protectedRecordBytes := encodeSlot_length t v
  have he : r.encode H = (magic ++ r.anchor.1) ++
      (r.encodeSlot H 0 (r.slots 0) ++ r.encodeSlot H 1 (r.slots 1)) := by
    simp [encode]
  refine Fin.forall_fin_two.mpr ⟨?_,?_⟩
  · rw [slotBytes,he,← drop_drop,drop_left' hm,Fin.val_zero,zero_mul,drop_zero]
    exact take_left' (hl 0 _)
  · rw [slotBytes,he,← drop_drop,drop_left' hm,Fin.val_one,one_mul,drop_left' (hl 0 _)]
    exact take_of_length_le (hl 1 _).le

lemma decode_encode {he : SigningSafety}
    (hv : Valid (domainHash H (ascii "astrolune.signing.rollover.v1") tip.1)
      ⟨maxJournalRecords,pos,msg,he⟩ r) :
    decode H tip (some (pos,msg)) (some he) (r.encode H) = .ok r := by
  have hh : (r.encode H).take 8 = magic ∧ ((r.encode H).drop 8).take 32 = r.anchor.1 := by
    have hm : magic.length = 8 := rfl
    refine ⟨take_left' hm,?_⟩
    rw [encode,drop_left' hm]
    exact take_left' r.anchor.2
  have hs (s : Fin 2) : decodeSlot H r.anchor
      ⟨maxJournalRecords,pos,msg,he⟩ s (slotBytes (r.encode H) s) = .ok (r.slots s) := by
    rw [slotBytes_encode]
    exact decodeSlot_encodeSlot rfl rfl (hv.fits s)
  have ho := checkOrder_ok.mpr hv.order
  have hr : (⟨r.anchor,![r.slots 0,r.slots 1]⟩ : Rollover) = r := by
    refine Rollover.ext rfl (funext (Fin.forall_fin_two.mpr ⟨rfl,rfl⟩))
  simp only [decode,new,okOr,ok_bind,pure_eq_ok,latest,lt_irrefl,if_false,← hv.anchor,
    hs,ho,hr,encode_length,hh,and_self,ensure_of]

def decision (w : Watermark) : Decision := ⟨w.position, w.message, some w.safety⟩

lemma Steps.precedes {a b : Watermark} (h : Steps a b) : (decision a).Precedes (decision b) :=
  Decision.precedes_of_validate h.position (by simpa [decision] using h.safety)

lemma Fits.extends (h : Fits baseline s w) : (decision baseline).Extends (decision w) := by
  rcases h.place with rfl | ⟨_,_,hp⟩
  · exact .inl rfl
  · exact .inr (Decision.precedes_of_validate hp (by simpa [decision] using h.safety))

lemma Fits.le_sequence (hb : baseline.sequence = maxJournalRecords) (h : Fits baseline s w) :
    maxJournalRecords ≤ w.sequence := by
  rcases h.place with rfl | ⟨hl,_⟩
  · exact hb.ge
  · exact hl.le

lemma Valid.cases (hv : Valid anchor baseline r) :
    ((∀ s, r.slots s = baseline) ∧ r.latest = baseline ∧ r.older = none) ∨
    ∃ s, r.latest = r.slots s ∧ r.older = some (r.slots (s + 1)) ∧
      Steps (r.slots (s + 1)) (r.slots s) := by
  rcases hv.order with ⟨h0,h1⟩ | h | h
  · exact .inl ⟨Fin.forall_fin_two.mpr ⟨h0,h1⟩,by simp [latest,h0,h1],by simp [older,h0,h1]⟩
  · have hs : (r.slots 0).sequence < (r.slots 1).sequence := by
      rw [h.sequence]; exact Nat.lt_succ_self _
    exact .inr ⟨1,by simp [latest,hs.not_gt],by simp [older,hs,hs.ne],h⟩
  · have hs : (r.slots 1).sequence < (r.slots 0).sequence := by
      rw [h.sequence]; exact Nat.lt_succ_self _
    exact .inr ⟨0,by simp [latest,hs],by simp [older,hs.not_gt,hs.ne'],h⟩

lemma slot_succ {seq : Nat} (h : maxJournalRecords < seq) :
    slot (seq + 1) = slot seq + 1 := by
  unfold slot
  split <;> split <;> first | rfl | omega

lemma other_other : ∀ s : Fin 2, s + 1 + 1 = s := by decide

lemma Valid.latest_kept (hv : Valid anchor baseline r) :
    r.slots (slot (r.latest.sequence + 1) + 1) = r.latest := by
  rcases hv.cases with ⟨ha,hl,_⟩ | ⟨s,hl,_,hst⟩
  · rw [ha,hl]
  · have hlo := (hv.fits (s + 1)).le_sequence hv.prefixEnd
    have hlt : maxJournalRecords < (r.slots s).sequence := by rw [hst.sequence]; omega
    have hsl : slot (r.slots s).sequence = s := by
      rcases (hv.fits s).place with he | ⟨_,hs,_⟩
      · rw [he,hv.prefixEnd] at hlt
        exact absurd hlt (lt_irrefl _)
      · exact hs
    rw [hl,slot_succ hlt,hsl,other_other]

lemma Valid.slot_extends (hv : Valid anchor baseline r) (s : Fin 2) :
    (decision (r.slots s)).Extends (decision r.latest) := by
  rcases hv.cases with ⟨ha,hl,_⟩ | ⟨t,hl,_,hste⟩
  · rw [ha,hl]
    exact .inl rfl
  · rw [hl]
    by_cases hst : s = t
    · exact .inl (by rw [hst])
    · have hs : s = t + 1 := by omega
      rw [hs]
      exact .inr hste.precedes

lemma Valid.baseline_extends (hv : Valid anchor baseline r) :
    (decision baseline).Extends (decision r.latest) :=
  (hv.fits 0).extends.trans (hv.slot_extends 0)

lemma validateSafety_trans {mid older : Watermark}
    (hm : (decision older).Extends (decision mid)) (hp : mid.position < pos)
    (hv : validateSafety pos sf (some (mid.position,mid.safety)) = .ok ()) :
    validateSafety pos sf (some (older.position,older.safety)) = .ok () := by
  have hne : (decision mid).Precedes ⟨pos,mid.message,some sf⟩ :=
    Decision.precedes_of_validate hp (by simpa [decision] using hv)
  refine validateSafety_ok.mpr ⟨(validateSafety_ok.mp hv).1,?_⟩
  simp only [Option.mem_some_iff,forall_eq']
  intro hh
  have ho : (decision older).Precedes ⟨pos,mid.message,some sf⟩ := by
    rcases hm with he | hm
    · rwa [he]
    · exact hm.trans hne
  obtain ⟨new,hn,hf⟩ := ho.safety hh older.safety rfl
  cases hn
  exact hf

lemma prepare_ok {seq : Nat} {bs : Bytes}
    (h : r.prepare H seq pos msg sf = .ok (s,bs)) :
    s = slot seq ∧ bs = r.encodeSlot H s ⟨seq,pos,msg,sf⟩ ∧ Steps r.latest ⟨seq,pos,msg,sf⟩ := by
  obtain ⟨_,he,h⟩ := bind_eq_ok.mp h
  obtain ⟨_,hv,h⟩ := bind_eq_ok.mp h
  simp only [pure_ok_iff,Prod.mk.injEq] at h
  obtain ⟨rfl,rfl⟩ := h
  obtain ⟨hs,hp⟩ := ensure_eq_ok.mp he
  obtain ⟨hs,hb⟩ := checkedAdd64_eq_some.mp hs
  exact ⟨rfl,rfl,hs,hb,hp,hv⟩

lemma Valid.publish (hv : Valid anchor baseline r) (hw : Steps r.latest w)
    (hp : w.position.phase ≤ precommitPhase) :
    Valid anchor baseline (r.publish (slot w.sequence) w) ∧ (r.publish (slot w.sequence) w).latest = w ∧
      (r.publish (slot w.sequence) w).older = some r.latest := by
  have hk := hv.latest_kept
  rw [← hw.sequence] at hk
  have hn : ∀ t : Fin 2, t + 1 ≠ t := by decide
  have hs : (r.publish (slot w.sequence) w).slots (slot w.sequence) = w ∧
      (r.publish (slot w.sequence) w).slots (slot w.sequence + 1) = r.latest := by
    simp only [Rollover.publish,update_self,true_and]
    rw [update_of_ne (hn _),hk]
  have hb : (decision baseline).Extends (decision r.latest) := hv.baseline_extends
  have hf : Fits baseline (slot w.sequence) w := by
    refine ⟨hp,hw.bounded,.inr ⟨?_,rfl,?_⟩,validateSafety_trans hb hw.position hw.safety⟩
    · have hl := (hv.fits (slot w.sequence + 1)).le_sequence hv.prefixEnd
      rw [hk] at hl
      rw [hw.sequence]
      omega
    · rcases hb with he | hlt
      · have hpo : baseline.position = r.latest.position := congrArg Decision.position he
        exact hpo ▸ hw.position
      · exact hlt.position.trans hw.position
  have hva : Valid anchor baseline (r.publish (slot w.sequence) w) := by
    refine ⟨hv.anchor,hv.prefixEnd,fun t => ?_,?_⟩
    · by_cases ht : t = slot w.sequence
      · rw [ht,hs.1]
        exact hf
      · simpa only [Rollover.publish,update_of_ne ht] using hv.fits t
    · obtain ⟨hne,ho⟩ := hs
      generalize slot w.sequence = t at hne ho ⊢
      revert hne ho
      match t with
      | 0 => exact fun hne ho => .inr (.inr (by rw [hne]; simpa using ho ▸ hw))
      | 1 => exact fun hne ho => .inr (.inl (by rw [hne]; simpa using ho ▸ hw))
  refine ⟨hva,?_⟩
  have hlt : r.latest.sequence < w.sequence := by rw [hw.sequence]; exact Nat.lt_succ_self _
  obtain ⟨hne,ho⟩ := hs
  generalize slot w.sequence = t at hne ho ⊢
  match t with
  | 0 =>
    have ho : (r.publish 0 w).slots 1 = r.latest := ho
    exact ⟨by simp [latest.eq_1 (r.publish 0 w),hne,ho,hlt], by simp [older,hne,ho,hlt.ne',hlt.not_gt]⟩
  | 1 =>
    have ho : (r.publish 1 w).slots 0 = r.latest := ho
    exact ⟨by simp [latest.eq_1 (r.publish 1 w),hne,ho,hlt.not_gt], by simp [older,hne,ho,hlt,hlt.ne]⟩

lemma encode_publish (s : Fin 2) (w : Watermark) : (r.publish s w).encode H =
      overwrite (r.encode H) (extensionHeaderBytes + s.val * protectedRecordBytes)
        (r.encodeSlot H s w) := by
  have hm : (magic ++ r.anchor.1).length = extensionHeaderBytes := by
    simp [magic,ascii,r.anchor.2,extensionHeaderBytes]
  have hl (t : Fin 2) (v : Watermark) : (r.encodeSlot H t v).length =
      protectedRecordBytes := encodeSlot_length t v
  have he (q : Rollover) (ha : q.anchor = r.anchor) : q.encode H = (magic ++ r.anchor.1) ++
      (r.encodeSlot H 0 (q.slots 0) ++ r.encodeSlot H 1 (q.slots 1)) := by
    simp [encode,encodeSlot,ha]
  rw [he (r.publish s w) rfl,he r rfl]
  revert s
  refine Fin.forall_fin_two.mpr ⟨?_,?_⟩
  · have hd : ((magic ++ r.anchor.1) ++ (r.encodeSlot H 0 (r.slots 0) ++
        r.encodeSlot H 1 (r.slots 1))).drop (extensionHeaderBytes + protectedRecordBytes) =
          r.encodeSlot H 1 (r.slots 1) := by
      rw [← drop_drop,drop_left' hm,drop_left' (hl 0 _)]
    simp only [Rollover.publish,overwrite,update_self,Fin.val_zero,zero_mul,
      Nat.add_zero,take_left' hm,hl,hd]
    simp
  · have ht : ((magic ++ r.anchor.1) ++ (r.encodeSlot H 0 (r.slots 0) ++
        r.encodeSlot H 1 (r.slots 1))).take (extensionHeaderBytes + protectedRecordBytes) =
          (magic ++ r.anchor.1) ++ r.encodeSlot H 0 (r.slots 0) := by
      rw [← append_assoc]
      exact take_left' (by rw [length_append,hm,hl])
    have hd : ((magic ++ r.anchor.1) ++ (r.encodeSlot H 0 (r.slots 0) ++
        r.encodeSlot H 1 (r.slots 1))).drop
          (extensionHeaderBytes + protectedRecordBytes + protectedRecordBytes) = [] := by
      apply drop_eq_nil_of_le
      rw [length_append,hm,length_append,hl,hl,Nat.add_assoc]
    simp only [Rollover.publish,overwrite,update_self,Fin.val_one,one_mul,ht,hl,hd]
    simp

end
end Rollover
end Astrolune.Keystore

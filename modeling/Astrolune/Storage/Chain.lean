import Astrolune.Storage.Log

namespace Astrolune.Storage
open Lib Codec State List

section Layout

variable (H : Hasher)

def payload (r : Record) : Bytes := ((r.encode H).toOption).getD []

def frame (previous : Hash256) (bytes : Bytes) : Bytes :=
  leBytes 8 bytes.length ++ (bytes ++ (frameHash H previous bytes).1)

def tipFrom (tip : Hash256) (records : List Record) : Hash256 :=
  records.foldl (fun tip r => frameHash H tip (payload H r)) tip

def framesFrom : Hash256 → List Record → Bytes
  | _, [] => []
  | tip, r :: rest =>
    frame H tip (payload H r) ++
      framesFrom (frameHash H tip (payload H r)) rest

def header : Bytes := logMagic ++ (initialTip H).1

def image (records : List Record) : Bytes :=
  header H ++ framesFrom H (initialTip H) records

def tipOf (records : List Record) : Hash256 := tipFrom H (initialTip H) records

def headOf (records : List Record) : Bytes :=
  headBytes H (image H records).length (tipOf H records)

def locationOf (records : List Record) (r : Record) : Location where
  offset := (image H records).length
  endOffset := (image H (records ++ [r])).length
  previous := tipOf H records
  hash := tipOf H (records ++ [r])

variable {H}

lemma payload_of_encode {r : Record} {bs : Bytes} (h : r.encode H = .ok bs) :
    payload H r = bs := by
  simp [payload,h,Except.toOption]

lemma length_frame (prev : Hash256) (bs : Bytes) :
    (frame H prev bs).length = bs.length + frameOverhead := by
  simp only [frame,length_append,leBytes_length,(frameHash H prev bs).2]
  unfold frameOverhead
  omega

lemma length_header : (header H).length = headerSize := by
  simp only [header,length_append,(initialTip H).2]
  rfl

lemma framesFrom_append (tip : Hash256) (a b : List Record) : framesFrom H tip (a ++ b) =
      framesFrom H tip a ++ framesFrom H (tipFrom H tip a) b := by
  induction a generalizing tip with
  | nil => rfl
  | cons r rest ih =>
    rw [cons_append,framesFrom,ih,← append_assoc]
    rfl

lemma image_snoc (rs : List Record) (r : Record) : image H (rs ++ [r]) =
    image H rs ++ frame H (tipOf H rs) (payload H r) := by
  rw [image,framesFrom_append,← append_assoc,framesFrom,framesFrom,append_nil]
  rfl

lemma tipOf_snoc (rs : List Record) (r : Record) : tipOf H (rs ++ [r]) =
    frameHash H (tipOf H rs) (payload H r) := by
  simp [tipOf,tipFrom]

lemma image_append (a b : List Record) : image H a <+: image H (a ++ b) := by
  rw [image,image,framesFrom_append,← append_assoc]
  exact prefix_append _ _

lemma header_front (rs : List Record) : header H <+: image H rs := prefix_append _ _

lemma length_image_nil : (image H []).length = headerSize := by
  rw [image,framesFrom,append_nil,length_header]

lemma headerSize_le (rs : List Record) : headerSize ≤ (image H rs).length :=
  length_header ▸ (header_front rs).length_le

lemma length_image_snoc (rs : List Record) (r : Record) : (image H (rs ++ [r])).length =
      (image H rs).length + ((payload H r).length + frameOverhead) := by
  rw [image_snoc,length_append,length_frame]

end Layout

section Positions

variable {H : Hasher}

lemma prepareBatch_ok {b : CommitBatch} {cur : Option Checkpoint} {st next : InMemoryState}
    {cp : Checkpoint} (h : prepareBatch H b cur st = .ok (cp,next)) :
    cp.height = b.block.header.height ∧ cp.block = b.block.header.computeHash H ∧
      cp.stateRoot = next.root H ∧
      next.map = applyTo (b.stateDiffs.flatMap StateDiff.changes) st.map ∧
      (∀ c ∈ cur, cp.height.toNat = c.height.toNat + 1) := by
  simp only [prepareBatch,bind_eq_ok,ensure_eq_ok] at h
  obtain ⟨⟨height,par⟩,hp,_,⟨hh,_⟩,next',hpr,_,hro,he⟩ := h
  cases he
  have hpre : st.prepare H (st.root H) b.stateDiffs = .ok next := by
    generalize st.prepare H (st.root H) b.stateDiffs = x at hpr
    cases x with
    | error e => cases hpr
    | ok s =>
      cases hpr
      rfl
  refine ⟨hh.symm,rfl,rfl,(InMemoryState.prepare_ok hpre).2,?_⟩
  rintro c rfl
  simp only [nextPosition,bind_eq_ok,ensure_eq_ok,pure_eq_ok] at hp
  obtain ⟨_,hr,heq⟩ := hp
  cases heq
  rw [UInt64.toNat_add]
  exact Nat.mod_eq_of_lt hr

end Positions
end Astrolune.Storage

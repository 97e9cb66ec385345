import Astrolune.Lib.Bytes

namespace Astrolune.Lib
open List

/-- One file as a crash sees it: what a reader gets now, what the last successful sync made
durable, and the bytes whose write has not been synced since. -/
structure File where
  visible : Bytes
  synced : Bytes
  pending : Option (Nat × Bytes)
  deriving DecidableEq

/-- The result of a write followed by a sync. A failure leaves arbitrary bytes in a part of the
written range, which covers every mixture of old and new bytes and every shorter append. -/
inductive WriteOutcome where
  | done
  | failed (left : Bytes)
  deriving DecidableEq

namespace File

def settled (content : Bytes) : File := ⟨content, content, none⟩

def write (f : File) (offset : Nat) (bytes : Bytes) : WriteOutcome → File × Bool
  | .done => (settled (overwrite f.visible offset bytes), true)
  | .failed left =>
    ({ f with visible := overwrite f.visible offset (left.take bytes.length),
              pending := some (offset, bytes) }, false)

def sync (f : File) : File := settled f.visible

/-- A power loss: whatever was not synced may come back as anything. -/
def lose (f : File) (left : Bytes) : File :=
  match f.pending with
  | none => { f with visible := f.synced }
  | some (offset, bytes) => { f with visible := overwrite f.synced offset (left.take bytes.length) }

def MayRead (f : File) (content : Bytes) : Prop :=
  content = f.visible ∨ ∃ left, content = (f.lose left).visible

def Whole (f : File) (content : Bytes) : Prop :=
  content = f.synced ∨ ∃ write ∈ f.pending, content = overwrite f.synced write.1 write.2

variable {ct base left : Bytes}

lemma whole_settled (h : (settled base).Whole ct) : ct = base := by
  rcases h with rfl | ⟨_,hw,_⟩
  · rfl
  · cases hw

lemma whole_lose {f : File} (h : (f.lose left).Whole ct) : f.Whole ct := by
  rcases f with ⟨visible,synced,_ | ⟨off,bs⟩⟩
  · exact h
  · exact h

lemma mayRead_settled (h : (settled base).MayRead ct) : ct = base := by
  rcases h with rfl | ⟨_,rfl⟩ <;> rfl

lemma mayRead_visible (f : File) : f.MayRead f.visible := .inl rfl

lemma lose_lose (f : File) (a b : Bytes) : (f.lose a).lose b = f.lose b := by
  unfold lose
  rcases f with ⟨visible,synced,_ | range⟩ <;> rfl

lemma mayRead_lose {f : File} (h : (f.lose left).MayRead ct) : f.MayRead ct := by
  rcases h with rfl | ⟨again,rfl⟩
  · exact .inr ⟨left,rfl⟩
  · exact .inr ⟨again,by rw [lose_lose]⟩

lemma mayRead_failed {bs : Bytes} {off : Nat}
    (h : ((settled base).write off bs (.failed left)).1.MayRead ct) :
    ∃ torn : Bytes, torn.length ≤ bs.length ∧ ct = overwrite base off torn := by
  rcases h with rfl | ⟨again,rfl⟩
  · exact ⟨left.take bs.length,length_take_le _ _,rfl⟩
  · exact ⟨again.take bs.length,length_take_le _ _,rfl⟩

end File
end Astrolune.Lib

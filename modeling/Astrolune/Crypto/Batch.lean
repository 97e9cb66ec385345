import Astrolune.Types.Hash

namespace Astrolune.Crypto
open Lib List

/-- The linked Ed25519 verification: the strict check, and the keys registration accepts; and the host
it runs on: its parallelism, and whether it can start every worker. -/
structure Verifier where
  ed25519Verify : Fixed 32 → Bytes → Fixed 64 → Bool
  strongKey : Fixed 32 → Bool
  parallelism : Nat := 1
  spawns : Bool := true

structure DigestRequest where
  publicKey : Fixed 32
  digest : Hash256
  signature : Fixed 64

def DigestRequest.verify (v : Verifier) (r : DigestRequest) : Bool :=
  v.ed25519Verify r.publicKey r.digest.1 r.signature

def maxVerifyWorkers : Nat := 32
def minParallelRequests : Nat := 8

section
variable {α : Type} (verify : α → Bool)

def chunkFailure (requests : List α) (base : Nat) : Option Nat :=
  (requests.findIdx? fun r => !verify r).map (base + ·)

def lower : Option Nat → Option Nat → Option Nat
  | some left, some right => some (min left right)
  | some index, none => some index
  | none, some index => some index
  | none, none => none

def joinChunks (requests : List α) (chunk : Nat) : Nat → Option Nat
  | 0 => none
  | parts + 1 => lower (joinChunks requests chunk parts)
      (chunkFailure verify ((requests.drop (parts * chunk)).take chunk) (parts * chunk))

/-- `spawned` says whether the host could start every worker. -/
def firstFailure (requests : List α) (workers : Nat) (spawned : Bool) : Option Nat :=
  let workers := min (min workers maxVerifyWorkers) requests.length
  if workers < 2 ∨ requests.length < minParallelRequests then chunkFailure verify requests 0
  else
    let chunk := (requests.length + workers - 1) / workers
    if spawned = false then chunkFailure verify requests 0
    else joinChunks verify requests chunk ((requests.length + chunk - 1) / chunk)

variable {verify} {requests : List α}

lemma lower_of_le {left right : Option Nat} (h : ∀ i ∈ left, ∀ j ∈ right, i ≤ j) :
    lower left right = left.or right := by
  cases left with
  | none => cases right <;> rfl
  | some i =>
    cases right with
    | none => rfl
    | some j => simp [lower,Nat.min_eq_left (h i rfl j rfl)]

lemma joinChunks_eq (chunk parts : Nat) : joinChunks verify requests chunk parts =
      (requests.take (parts * chunk)).findIdx? fun r => !verify r := by
  induction parts with
  | zero => simp [joinChunks]
  | succ parts ih =>
    have hs : requests.take ((parts + 1) * chunk) = requests.take (parts * chunk) ++
        (requests.drop (parts * chunk)).take chunk := by
      rw [Nat.succ_mul,take_add]
    have hb : chunkFailure verify ((requests.drop (parts * chunk)).take chunk)
        (parts * chunk) = (((requests.drop (parts * chunk)).take chunk).findIdx?
          fun r => !verify r).map (· + (requests.take (parts * chunk)).length) := by
      rcases Nat.le_total (parts * chunk) requests.length with hl | hl
      · simp [chunkFailure,Nat.min_eq_left hl,Nat.add_comm]
      · simp [chunkFailure,drop_eq_nil_of_le hl]
    rw [joinChunks,ih,hb,hs,findIdx?_append]
    apply lower_of_le
    intro i hi j hj
    obtain ⟨k,_,rfl⟩ := Option.map_eq_some_iff.mp hj
    have hlt := (findIdx?_eq_some_iff_findIdx_eq.mp hi).1
    omega

lemma firstFailure_eq (workers : Nat) (spawned : Bool) :
    firstFailure verify requests workers spawned = requests.findIdx? fun r => !verify r := by
  have hs : chunkFailure verify requests 0 = requests.findIdx? fun r => !verify r := by
    simp [chunkFailure]
  unfold firstFailure
  dsimp only
  split
  · exact hs
  · rename_i hm
    split
    · exact hs
    · rw [joinChunks_eq,take_of_length_le]
      generalize hw : min (min workers maxVerifyWorkers) requests.length = w at hm ⊢
      have hl : 0 < requests.length := by
        simp only [minParallelRequests] at hm
        omega
      have hc : 0 < (requests.length + w - 1) / w := Nat.div_pos (by omega) (by omega)
      generalize (requests.length + w - 1) / w = chunk at hc ⊢
      have := Nat.lt_div_mul_add (a := requests.length + chunk - 1) hc
      omega

end

def suggestedWorkers (parallelism requests : Nat) : Nat :=
  if requests < minParallelRequests then 1 else max (min (min parallelism maxVerifyWorkers) requests) 1

def firstDigestFailure (v : Verifier) (requests : List DigestRequest) : Option Nat :=
  firstFailure (DigestRequest.verify v) requests (suggestedWorkers v.parallelism requests.length)
    v.spawns

lemma firstDigestFailure_none {v : Verifier} {requests : List DigestRequest} :
    firstDigestFailure v requests = none ↔ ∀ r ∈ requests, r.verify v = true := by
  rw [firstDigestFailure,firstFailure_eq]
  simp

end Astrolune.Crypto

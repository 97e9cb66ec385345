import Astrolune.Codec.Exact
import Astrolune.Types.Hash

namespace Astrolune.Rpc
open Lib Codec List

/-- The value of a digit in base sixteen. -/
def hexDigit (b : UInt8) : Option Nat :=
  if 48 ≤ b ∧ b ≤ 57 then some (b.toNat - 48)
  else if 97 ≤ b ∧ b ≤ 102 then some (b.toNat - 87)
  else if 65 ≤ b ∧ b ≤ 70 then some (b.toNat - 55)
  else none

def addDigit (value : Nat) (b : UInt8) : Option Nat := do
  let digit ← hexDigit b
  if value * 16 + digit < 256 then some (value * 16 + digit) else none

/-- `u8::from_str_radix` in base sixteen. It takes a leading plus sign. -/
def fromStrRadix (text : Bytes) : Option UInt8 :=
  if text = [] ∨ text = [43] ∨ text = [45] then none
  else ((if text.head? = some 43 then text.tail else text).foldlM addDigit 0).map UInt8.ofNat

/-- One chunk of two bytes, which has to be UTF-8 by itself. -/
def parsePair (p : UInt8 × UInt8) : Except String UInt8 := do
  ensure "invalid hex character" (p.1 < 128 ∧ p.2 < 128 ∨ 194 ≤ p.1 ∧ p.1 ≤ 223 ∧ 128 ≤ p.2 ∧ p.2 ≤ 191)
  okOr "invalid hex character" (fromStrRadix [p.1, p.2])

def chunks : Bytes → List (UInt8 × UInt8)
  | a :: b :: rest => (a, b) :: chunks rest
  | _ => []

def stripMarker (hex : Bytes) : Bytes := if hex.take 2 = ascii "0x" then hex.drop 2 else hex

def parseHexBytes (hex : Bytes) : Except String Bytes := do
  ensure "hex string must have even length" ((stripMarker hex).length % 2 = 0)
  (chunks (stripMarker hex)).mapM parsePair

def parseHexAddress (hex : Bytes) : Except String Bytes := do
  ensure ("address must be 64 hex chars, got " ++ toString (stripMarker hex).length)
    ((stripMarker hex).length = 64)
  (chunks (stripMarker hex)).mapM parsePair

def IsHex (b : UInt8) : Prop := (hexDigit b).isSome

def lower (b : UInt8) : UInt8 := if 65 ≤ b ∧ b ≤ 70 then b + 32 else b

def hexChar (n : Nat) : UInt8 := UInt8.ofNat (if n < 10 then 48 + n else 87 + n)

def hexByte (v : UInt8) : Bytes := [hexChar (v.toNat / 16), hexChar (v.toNat % 16)]

/-- Hexadecimal text of the bytes, up to the case of letters. -/
def Spells (body bytes : Bytes) : Prop := (∀ b ∈ body, IsHex b) ∧ body.map lower = bytes.flatMap hexByte

/-- Pairs that are all read as bytes, some of them for their plus sign. -/
def PlusSpelled (body : Bytes) : Prop :=
  (∀ p ∈ chunks body, IsHex p.2 ∧ (IsHex p.1 ∨ p.1 = 43)) ∧ ∃ p ∈ chunks body, p.1 = 43

variable {a b v : UInt8} {n m : Nat} {body bs hex : Bytes}

lemma hexDigit_eq_some (h : hexDigit b = some n) : n < 16 ∧ b < 128 ∧ b ≠ 43 ∧ lower b = hexChar n := by
  have hb := b.toNat_lt
  simp only [hexDigit,lower,hexChar,UInt8.le_iff_toNat_le,UInt8.lt_iff_toNat_lt,ne_eq,
    ← UInt8.toNat_inj] at h ⊢
  split at h
  · cases h
    split <;> split <;> simp_all <;> omega
  · split at h
    · cases h
      split <;> split <;> simp_all <;> omega
    · split at h
      · cases h
        split <;> split <;> simp_all <;> omega
      · cases h

lemma hexChar_inj (hn : n < 16) (hm : m < 16) (h : hexChar n = hexChar m) : n = m := by
  simp only [hexChar,← UInt8.toNat_inj] at h
  split at h <;> split at h <;> simp at h <;> omega

lemma addDigit_zero : addDigit 0 b = hexDigit b := by
  cases h : hexDigit b with
  | none => simp [addDigit,h]
  | some n =>
    have hn := (hexDigit_eq_some h).1
    simp [addDigit,h,show n < 256 by omega]

lemma addDigit_eq_some (hn : n < 16) {value : Nat} :
    addDigit n b = some value ↔ ∃ m, hexDigit b = some m ∧ n * 16 + m = value := by
  cases h : hexDigit b with
  | none => simp [addDigit,h]
  | some m =>
    have hm := (hexDigit_eq_some h).1
    simp [addDigit,h,show n * 16 + m < 256 by omega]

lemma parsePair_plus : parsePair (43,b) = .ok v ↔ ∃ m, hexDigit b = some m ∧ UInt8.ofNat m = v := by
  simp only [parsePair,fromStrRadix,bind_eq_ok,ensure_eq_ok,okOr_eq_ok]
  simp only [cons_ne_nil,cons.injEq,and_false,or_self,reduceIte,head?_cons,tail_cons,
    foldlM,addDigit_zero,bind_pure,Option.map_eq_some_iff]
  constructor
  · rintro ⟨_,_,h⟩
    exact h
  · rintro ⟨m,hm,hv⟩
    exact ⟨(),.inl ⟨by decide,(hexDigit_eq_some hm).2.1⟩,m,hm,hv⟩

lemma parsePair_eq_ok (ha : a ≠ 43) : parsePair (a,b) = .ok v ↔
    ∃ n m, hexDigit a = some n ∧ hexDigit b = some m ∧ UInt8.ofNat (n * 16 + m) = v := by
  simp only [parsePair,fromStrRadix,bind_eq_ok,ensure_eq_ok,okOr_eq_ok]
  simp only [cons_ne_nil,cons.injEq,and_false,or_self,reduceIte,head?_cons,Option.some.injEq,
    ha,foldlM,addDigit_zero,bind_pure,Option.map_eq_some_iff,Option.bind_eq_bind,Option.bind_eq_some_iff]
  constructor
  · rintro ⟨_,_,value,⟨n,hn,hb⟩,rfl⟩
    obtain ⟨m,hm,rfl⟩ := (addDigit_eq_some (hexDigit_eq_some hn).1).mp hb
    exact ⟨n,m,hn,hm,rfl⟩
  · rintro ⟨n,m,hn,hm,rfl⟩
    exact ⟨(),.inl ⟨(hexDigit_eq_some hn).2.1,(hexDigit_eq_some hm).2.1⟩,_,
      ⟨n,hn,(addDigit_eq_some (hexDigit_eq_some hn).1).mpr ⟨m,hm,rfl⟩⟩,rfl⟩

lemma digits_iff : (∃ n m, hexDigit a = some n ∧ hexDigit b = some m ∧ UInt8.ofNat (n * 16 + m) = v) ↔
    (IsHex a ∧ IsHex b) ∧ [lower a,lower b] = hexByte v := by
  have hv := v.toNat_lt
  constructor
  · rintro ⟨n,m,ha,hb,rfl⟩
    obtain ⟨hn,-,-,hl⟩ := hexDigit_eq_some ha
    obtain ⟨hm,-,-,hlb⟩ := hexDigit_eq_some hb
    refine ⟨⟨Option.isSome_iff_exists.mpr ⟨n,ha⟩,Option.isSome_iff_exists.mpr ⟨m,hb⟩⟩,?_⟩
    have hva : (UInt8.ofNat (n * 16 + m)).toNat = n * 16 + m := UInt8.toNat_ofNat_of_lt' (by
      change n * 16 + m < 256
      omega)
    rw [hexByte,hva,hl,hlb,show (n * 16 + m) / 16 = n by omega,show (n * 16 + m) % 16 = m by omega]
  · rintro ⟨⟨ha,hb⟩,h⟩
    obtain ⟨n,ha⟩ := Option.isSome_iff_exists.mp ha
    obtain ⟨m,hb⟩ := Option.isSome_iff_exists.mp hb
    obtain ⟨hn,-,-,hl⟩ := hexDigit_eq_some ha
    obtain ⟨hm,-,-,hlb⟩ := hexDigit_eq_some hb
    rw [hl,hlb,hexByte,cons.injEq,cons.injEq] at h
    obtain rfl := hexChar_inj hn (by omega) h.1
    obtain rfl := hexChar_inj hm (by omega) h.2.1
    refine ⟨_,_,ha,hb,?_⟩
    rw [Nat.div_add_mod',UInt8.ofNat_toNat]

lemma parsePair_exists : (∃ v, parsePair (a,b) = .ok v) ↔ IsHex b ∧ (IsHex a ∨ a = 43) := by
  by_cases ha : a = 43
  · subst ha
    simp [parsePair_plus,IsHex,Option.isSome_iff_exists]
  · simp only [parsePair_eq_ok ha,IsHex,Option.isSome_iff_exists,ha,or_false]
    constructor
    · rintro ⟨_,n,m,hn,hm,-⟩
      exact ⟨⟨m,hm⟩,n,hn⟩
    · rintro ⟨⟨m,hm⟩,n,hn⟩
      exact ⟨_,n,m,hn,hm,rfl⟩

lemma mem_of_chunks {p : UInt8 × UInt8} (h : p ∈ chunks body) : p.1 ∈ body ∧ p.2 ∈ body := by
  induction body using chunks.induct with
  | case1 a b rest ih =>
    rcases mem_cons.mp h with rfl | h
    · simp
    · exact ⟨by simp [(ih h).1],by simp [(ih h).2]⟩
  | case2 body hn => rw [chunks.eq_2 body hn] at h; cases h

/-- Without a plus sign, what is accepted is the form of the bytes, up to the case of letters. -/
lemma mapM_parsePair (he : body.length % 2 = 0) (hp : ∀ p ∈ chunks body, p.1 ≠ 43) :
    (chunks body).mapM parsePair = .ok bs ↔ Spells body bs := by
  induction body using chunks.induct generalizing bs with
  | case1 a b rest ih =>
    rw [chunks,forall_mem_cons] at hp
    rw [length_cons,length_cons] at he
    simp only [Spells,chunks,mapM_cons,bind_eq_ok,pure_ok_iff,parsePair_eq_ok hp.1,digits_iff,
      ih (by omega) hp.2,forall_mem_cons,map_cons]
    constructor
    · rintro ⟨v,⟨⟨ha,hb⟩,hab⟩,bs,⟨hal,hr⟩,rfl⟩
      refine ⟨⟨ha,hb,hal⟩,?_⟩
      rw [flatMap_cons,← hab,hr]
      rfl
    · rintro ⟨⟨ha,hb,hal⟩,h⟩
      cases bs with
      | nil => cases h
      | cons v bs =>
        rw [flatMap_cons,hexByte,cons_append,cons_append,nil_append,cons.injEq,cons.injEq] at h
        obtain ⟨hl,hlb,hr⟩ := h
        exact ⟨v,⟨⟨ha,hb⟩,by rw [hl,hlb,hexByte]⟩,bs,⟨hal,hr⟩,rfl⟩
  | case2 body hn =>
    obtain rfl : body = [] := by
      cases body with
      | nil => rfl
      | cons a rest =>
        cases rest with
        | nil => simp at he
        | cons b rest => exact absurd rfl (hn a b rest)
    simp only [Spells,chunks,mapM_nil,pure_ok_iff,map_nil]
    cases bs with
    | nil => simp
    | cons v bs => simp [hexByte]

lemma mapM_exists : (∃ bs, (chunks body).mapM parsePair = .ok bs) ↔
    ∀ p ∈ chunks body, IsHex p.2 ∧ (IsHex p.1 ∨ p.1 = 43) := by
  simp only [exists_mapM,Prod.forall,parsePair_exists]

lemma exact_iff (he : body.length % 2 = 0) :
    (∀ bs, (chunks body).mapM parsePair = .ok bs ↔ Spells body bs) ↔ ¬PlusSpelled body := by
  constructor
  · rintro h ⟨ha,p,hp,hpl⟩
    obtain ⟨bs,hb⟩ := mapM_exists.mpr ha
    have hx := ((h bs).mp hb).1 p.1 (mem_of_chunks hp).1
    rw [hpl] at hx
    cases hx
  · intro hn bs
    by_cases hp : ∀ p ∈ chunks body, p.1 ≠ 43
    · exact mapM_parsePair he hp
    · -- Some pair has a plus sign, so another one is not read at all.
      have hr : ¬∀ p ∈ chunks body, IsHex p.2 ∧ (IsHex p.1 ∨ p.1 = 43) := by
        intro ha
        push Not at hp
        exact hn ⟨ha,hp⟩
      refine ⟨fun h => absurd (mapM_exists.mp ⟨bs,h⟩) hr,fun h => absurd (fun p hm => ?_) hr⟩
      exact ⟨h.1 _ (mem_of_chunks hm).2,.inl (h.1 _ (mem_of_chunks hm).1)⟩

lemma parseHexBytes_eq_ok : parseHexBytes hex = .ok bs ↔
    (stripMarker hex).length % 2 = 0 ∧ (chunks (stripMarker hex)).mapM parsePair = .ok bs := by
  simp [parseHexBytes,bind_eq_ok,ensure_eq_ok]

lemma parseHexAddress_eq_ok : parseHexAddress hex = .ok bs ↔
    (stripMarker hex).length = 64 ∧ (chunks (stripMarker hex)).mapM parsePair = .ok bs := by
  simp [parseHexAddress,bind_eq_ok,ensure_eq_ok]

/-- The parsers take a plus sign for the first digit of a byte, and are exact on every other string.
-/
theorem hex_parsing_exact (hex : Bytes) :
    ((∃ bytes, parseHexBytes hex = .ok bytes) ↔ (stripMarker hex).length % 2 = 0 ∧
      ∀ p ∈ chunks (stripMarker hex), IsHex p.2 ∧ (IsHex p.1 ∨ p.1 = 43)) ∧
    ((∃ bytes, parseHexAddress hex = .ok bytes) ↔ (stripMarker hex).length = 64 ∧
      ∀ p ∈ chunks (stripMarker hex), IsHex p.2 ∧ (IsHex p.1 ∨ p.1 = 43)) ∧
    ((∀ bytes, parseHexBytes hex = .ok bytes ↔
        (stripMarker hex).length % 2 = 0 ∧ Spells (stripMarker hex) bytes) ↔
      ¬((stripMarker hex).length % 2 = 0 ∧ PlusSpelled (stripMarker hex))) ∧
    ((∀ bytes, parseHexAddress hex = .ok bytes ↔
        (stripMarker hex).length = 64 ∧ Spells (stripMarker hex) bytes) ↔
      ¬((stripMarker hex).length = 64 ∧ PlusSpelled (stripMarker hex))) ∧
    ∀ other bytes, ¬PlusSpelled (stripMarker hex) → ¬PlusSpelled (stripMarker other) →
      (parseHexBytes hex = .ok bytes ∧ parseHexBytes other = .ok bytes ∨
        parseHexAddress hex = .ok bytes ∧ parseHexAddress other = .ok bytes) →
      (stripMarker hex).map lower = (stripMarker other).map lower := by
  simp only [parseHexBytes_eq_ok,parseHexAddress_eq_ok,exists_and_left,mapM_exists,true_and]
  refine ⟨?_,?_,?_⟩
  · by_cases he : (stripMarker hex).length % 2 = 0
    · simpa only [he,true_and] using exact_iff he
    · simp only [he,false_and,not_false_eq_true,implies_true]
  · by_cases hl : (stripMarker hex).length = 64
    · simpa only [hl,true_and] using exact_iff (show (stripMarker hex).length % 2 = 0 by omega)
    · simp only [hl,false_and,not_false_eq_true,implies_true]
  · intro other bytes hp ho h
    have hs : ∀ {body}, body.length % 2 = 0 → ¬PlusSpelled body → (chunks body).mapM parsePair = .ok bytes →
        body.map lower = bytes.flatMap hexByte := fun he hn hb => (((exact_iff he).mpr hn bytes).mp hb).2
    rcases h with ⟨⟨he,h⟩,he',h'⟩ | ⟨⟨he,h⟩,he',h'⟩
    · rw [hs he hp h,hs he' ho h']
    · rw [hs (by omega) hp h,hs (by omega) ho h']

theorem hex_takes_plus_sign : parseHexBytes (ascii "0x+f") = .ok [15] ∧ ¬IsHex 43 ∧
    parseHexBytes (ascii "0x0f") = .ok [15] := by
  refine ⟨by decide,?_,by decide⟩
  simp [IsHex,hexDigit]

def maxRequestSize : Nat := 1024 * 1024
def maxResponseSize : Nat := 8 * 1024 * 1024

/-- What the connection loop calls: the UTF-8 check, `parse_rpc_request` with the text of its error,
`dispatch` under the service's lock, and the JSON of an error response with id zero. -/
structure Service (σ Request : Type) where
  isUtf8 : Bytes → Bool
  parse : Bytes → Except Bytes Request
  dispatch : σ → Request → σ × Bytes
  rpcError : Int → Bytes → Bytes

/-- One pass of the loop: what it leaves unread, the service after it, and what it wrote. -/
structure Turn (σ : Type) where
  rest : Bytes
  state : σ
  response : Option Bytes

variable {σ Request : Type} (S : Service σ Request)

def answer (s : σ) (payload : Bytes) : σ × Bytes :=
  if S.isUtf8 payload then
    match S.parse payload with
    | .ok request => S.dispatch s request
    | .error message => (s, S.rpcError (-32700) message)
  else (s, S.rpcError (-32700) (ascii "invalid UTF-8"))

def writeResponse (json : Bytes) : Option Bytes :=
  if maxResponseSize < json.length then none else some (framed json)

/-- `handle_connection` when the client sends `stream` and every write succeeds. -/
def handleConnection (s : σ) (stream : Bytes) : List (Turn σ) :=
  if stream.length < 4 then []
  else if maxRequestSize < leNat (stream.take 4) then
    -- the payload of the rejected frame stays in the reader
    match writeResponse (S.rpcError (-32600) (ascii "request too large")) with
    | none => [⟨stream.drop 4, s, none⟩]
    | some response => ⟨stream.drop 4, s, some response⟩ :: handleConnection s (stream.drop 4)
  else if (stream.drop 4).length < leNat (stream.take 4) then [⟨[], s, none⟩]
  else
    let rest := (stream.drop 4).drop (leNat (stream.take 4))
    let answered := answer S s ((stream.drop 4).take (leNat (stream.take 4)))
    match writeResponse answered.2 with
    | none => [⟨rest, answered.1, none⟩]
    | some response => ⟨rest, answered.1, some response⟩ :: handleConnection answered.1 rest
termination_by stream.length
decreasing_by all_goals simp only [length_drop]; omega

/-- Every pass answers the next frame, and leaves the frames after it or ends the connection. -/
def InStep : List Bytes → List (Turn σ) → Prop
  | [], turns => turns = []
  | _ :: frames, turns => ∃ turn more, turns = turn :: more ∧ turn.response.isSome ∧
      (more = [] ∨ turn.rest = frames.flatMap framed ∧ InStep frames more)

def Fits (s : σ) : List Bytes → Prop
  | [] => True
  | frame :: frames => frame.length ≤ maxRequestSize ∧ (answer S s frame).2.length ≤ maxResponseSize ∧
      Fits (answer S s frame).1 frames

/-- One turn for each frame, in order. -/
def turns (s : σ) : List Bytes → List (Turn σ)
  | [] => []
  | frame :: frames => ⟨frames.flatMap framed, (answer S s frame).1, some (framed (answer S s frame).2)⟩ ::
      turns (answer S s frame).1 frames

variable {S} {s : σ} {frame tail : Bytes} {frames : List Bytes}

lemma framed_append_not_short : ¬(framed frame ++ tail).length < 4 := by
  rw [length_append,framed_length]
  omega

lemma take_framed (hl : frame.length < 2 ^ 32) :
    leNat ((framed frame ++ tail).take 4) = frame.length := by
  rw [framed,append_assoc,take_left' (leBytes_length ..),leNat_leBytes_of_lt hl]

lemma drop_framed : (framed frame ++ tail).drop 4 = frame ++ tail := by
  rw [framed,append_assoc,drop_left' (leBytes_length ..)]

lemma handleConnection_framed (hl : frame.length < 2 ^ 32) (hf : frame.length ≤ maxRequestSize) :
    handleConnection S s (framed frame ++ tail) = match writeResponse (answer S s frame).2 with
      | none => [⟨tail,(answer S s frame).1,none⟩]
      | some response => ⟨tail,(answer S s frame).1,some response⟩ ::
          handleConnection S (answer S s frame).1 tail := by
  have hp : ¬(frame ++ tail).length < frame.length := by simp
  rw [handleConnection,if_neg framed_append_not_short,take_framed hl,drop_framed,
    if_neg (by omega),if_neg hp,take_left' rfl,drop_left' rfl]

lemma handleConnection_oversize (hl : frame.length < 2 ^ 32) (hb : maxRequestSize < frame.length) :
    handleConnection S s (framed frame ++ tail) =
      match writeResponse (S.rpcError (-32600) (ascii "request too large")) with
      | none => [⟨frame ++ tail,s,none⟩]
      | some response => ⟨frame ++ tail,s,some response⟩ :: handleConnection S s (frame ++ tail) := by
  rw [handleConnection,if_neg framed_append_not_short,take_framed hl,drop_framed,if_pos hb]

lemma handleConnection_ne_nil {stream : Bytes} (hl : 4 ≤ stream.length) :
    handleConnection S s stream ≠ [] := by
  rw [handleConnection,if_neg (by omega)]
  split
  · split <;> exact cons_ne_nil _ _
  · split
    · exact cons_ne_nil _ _
    · dsimp only
      split <;> exact cons_ne_nil _ _

lemma not_inStep_of_oversize (hl : frame.length < 2 ^ 32) (hb : maxRequestSize < frame.length) :
    ¬InStep (frame :: frames) (handleConnection S s (framed frame ++ frames.flatMap framed)) := by
  rw [handleConnection_oversize hl hb]
  have hf : 4 ≤ (frame ++ frames.flatMap framed).length := by
    rw [length_append]
    simp only [maxRequestSize] at hb
    omega
  rintro ⟨turn,more,heq,hs,hr⟩
  split at heq
  · obtain ⟨rfl,-⟩ := cons.inj heq
    cases hs
  · obtain ⟨rfl,rfl⟩ := cons.inj heq
    rcases hr with hn | ⟨hr,-⟩
    · exact handleConnection_ne_nil hf hn
    · have := congrArg length hr
      rw [length_append] at this
      omega

lemma inStep_turns : InStep frames (turns S s frames) := by
  induction frames generalizing s with
  | nil => rfl
  | cons frame frames ih => exact ⟨_,_,rfl,rfl,.inr ⟨rfl,ih⟩⟩

lemma handleConnection_of_fits (hl : ∀ frame ∈ frames, frame.length < 2 ^ 32) (hf : Fits S s frames) :
    handleConnection S s (frames.flatMap framed) = turns S s frames := by
  induction frames generalizing s with
  | nil => rw [flatMap_nil,handleConnection,if_pos (by decide),turns]
  | cons frame frames ih =>
    rw [forall_mem_cons] at hl
    obtain ⟨hr,hre,hf⟩ := hf
    rw [flatMap_cons,handleConnection_framed hl.1 hr,writeResponse,if_neg (by omega),turns, ih hl.2 hf]

lemma fits_of_inStep (hl : ∀ frame ∈ frames, frame.length < 2 ^ 32)
    (h : InStep frames (handleConnection S s (frames.flatMap framed))) : Fits S s frames := by
  induction frames generalizing s with
  | nil => trivial
  | cons frame frames ih =>
    rw [forall_mem_cons] at hl
    rw [flatMap_cons] at h
    by_cases hr : frame.length ≤ maxRequestSize
    · rw [handleConnection_framed hl.1 hr,writeResponse] at h
      obtain ⟨turn,more,heq,hs,hres⟩ := h
      split_ifs at heq with hre
      · obtain ⟨rfl,-⟩ := cons.inj heq
        cases hs
      · obtain ⟨rfl,rfl⟩ := cons.inj heq
        refine ⟨hr,by omega,?_⟩
        rcases hres with hn | ⟨-,hres⟩
        · cases frames with
          | nil => trivial
          | cons next frames =>
            refine absurd hn (handleConnection_ne_nil ?_)
            rw [flatMap_cons]
            exact Nat.le_of_not_lt framed_append_not_short
        · exact ih hl.2 hres
    · exact absurd h (not_inStep_of_oversize hl.1 (by omega))

/-- The server stays in step with the frames exactly when no frame and no response is too large. -/
theorem connection_in_step_iff (S : Service σ Request) (s : σ) (frames : List Bytes)
    (hlens : ∀ frame ∈ frames, frame.length < 2 ^ 32) :
    (InStep frames (handleConnection S s (frames.flatMap framed)) ↔ Fits S s frames) ∧
    (Fits S s frames → handleConnection S s (frames.flatMap framed) = turns S s frames) := by
  refine ⟨⟨fits_of_inStep hlens,fun hf => ?_⟩,handleConnection_of_fits hlens⟩
  rw [handleConnection_of_fits hlens hf]
  exact inStep_turns

/-- A service that keeps the requests it is given. -/
def recorder : Service (List Bytes) Bytes := ⟨fun _ => true, .ok, fun s request => (s ++ [request], []), fun _ m => m⟩

theorem connection_in_step_two : handleConnection recorder [] ([[1], [2]].flatMap framed) =
    turns recorder [] [[1], [2]] :=
  (connection_in_step_iff recorder [] [[1],[2]] (by decide)).2
    ⟨by decide,by decide,by decide,by decide,trivial⟩

/-- A frame that is too large, whose payload starts with a request of its own. -/
def smuggled : Bytes := framed [7] ++ replicate maxRequestSize 0

theorem rejected_payload_dispatched :
    ((handleConnection recorder [] ([smuggled].flatMap framed)).take 2).map Turn.state = [[], [[7]]] ∧
    ¬InStep [smuggled] (handleConnection recorder [] ([smuggled].flatMap framed)) := by
  have hl : smuggled.length = 1048581 := by
    rw [smuggled,length_append,framed_length,length_replicate]
    rfl
  have hb : maxRequestSize < smuggled.length := hl ▸ by decide
  have hlt : smuggled.length < 2 ^ 32 := hl ▸ by decide
  refine ⟨?_,not_inStep_of_oversize hlt hb⟩
  rw [flatMap_cons,handleConnection_oversize hlt hb,smuggled,append_assoc,
    handleConnection_framed (by decide) (by decide)]
  simp [writeResponse,recorder,answer,maxResponseSize,ascii]

end Astrolune.Rpc

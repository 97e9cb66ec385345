import Mathlib.Algebra.Group.Int.Defs
import Astrolune.Lib.Result

namespace Astrolune.Rpc
open Lib List

inductive JsonValue where
  | null
  | bool (b : Bool)
  | number (n : Int)
  | string (s : List Char)
  | array (items : List JsonValue)
  | object (fields : List (List Char × JsonValue))

abbrev Parse (α : Type) : Type := List Char → Except String (α × List Char)

def isSpace (c : Char) : Bool := c = ' ' || c = '\t' || c = '\n' || c = '\r'

def skipWhitespace (input : List Char) : List Char := input.dropWhile isSpace

def expect (expected : Char) : List Char → Except String (List Char)
  | [] => .error s!"expected '{expected}', found end of input"
  | ch :: rest => if ch = expected then .ok rest else .error s!"expected '{expected}', found '{ch}'"

def hexValue (c : Char) : Option Nat :=
  if '0' ≤ c ∧ c ≤ '9' then some (c.toNat - 48)
  else if 'a' ≤ c ∧ c ≤ 'f' then some (c.toNat - 87)
  else if 'A' ≤ c ∧ c ≤ 'F' then some (c.toNat - 55)
  else none

/-- Four digits in base sixteen. -/
def parseQuad (incomplete invalid : String) : Parse Nat
  | a :: b :: c :: d :: rest => do
    let digits ← okOr invalid ([a, b, c, d].mapM hexValue)
    return (digits.foldl (· * 16 + ·) 0, rest)
  | _ => .error incomplete

def scalar (n : Nat) : Except String Char := do
  ensure "invalid Unicode scalar" n.isValidChar
  return Char.ofNat n

def parseUnicode : Parse Char := fun rest => do
  let (code, rest) ← parseQuad "incomplete unicode escape" "invalid unicode escape" rest
  if 0xD800 ≤ code ∧ code ≤ 0xDBFF then
    let rest ← expect '\\' rest
    let rest ← expect 'u' rest
    let (low, rest) ← parseQuad "incomplete surrogate pair" "invalid surrogate pair" rest
    ensure "invalid surrogate pair" (0xDC00 ≤ low ∧ low ≤ 0xDFFF)
    return (← scalar (0x10000 + (code - 0xD800) * 1024 + low - 0xDC00), rest)
  else return (← scalar code, rest)

/-- What follows a backslash. -/
def parseEscape : Parse Char
  | [] => .error "unexpected end of string escape"
  | c :: rest =>
    if c = '"' ∨ c = '\\' ∨ c = '/' then .ok (c, rest)
    else if c = 'n' then .ok ('\n', rest)
    else if c = 'r' then .ok ('\r', rest)
    else if c = 't' then .ok ('\t', rest)
    else if c = 'b' then .ok (Char.ofNat 8, rest)
    else if c = 'f' then .ok (Char.ofNat 12, rest)
    else if c = 'u' then parseUnicode rest
    else .error s!"invalid escape character '\\{c}'"

/-- The loop of `parse_string`. Each turn takes a character, so the length is enough fuel. -/
def parseChars : Nat → Parse (List Char)
  | fuel + 1, c :: rest =>
    if c = '"' then .ok ([], rest)
    else if c = '\\' then do
      let (ch, rest) ← parseEscape rest
      let (text, rest) ← parseChars fuel rest
      return (ch :: text, rest)
    else if c < ' ' then .error "unescaped control character"
    else do
      let (text, rest) ← parseChars fuel rest
      return (c :: text, rest)
  | _, _ => .error "unterminated string"

def parseString : Parse (List Char) := fun input => do
  let rest ← expect '"' input
  parseChars rest.length rest

def digitsValue (digits : List Char) : Nat := digits.foldl (fun n c => n * 10 + (c.toNat - 48)) 0

def parseDigits (negative : Bool) : Parse JsonValue := fun input => do
  let digits := input.takeWhile Char.isDigit
  let n : Int := if negative then -digitsValue digits else digitsValue digits
  ensure "leading zero in number" (¬(1 < digits.length ∧ digits.head? = some '0'))
  let sign := if negative then "-" else ""
  let text := String.ofList digits
  ensure s!"invalid number: {sign}{text}" (digits ≠ [] ∧ -2 ^ 63 ≤ n ∧ n < 2 ^ 63)
  return (.number n, input.dropWhile Char.isDigit)

def parseNumber : Parse JsonValue := fun input =>
  if input.head? = some '-' then parseDigits true input.tail else parseDigits false input

def parseWord (word : String) (v : JsonValue) (input : List Char) : Option (JsonValue × List Char) :=
  if input.take word.length = word.toList then some (v, input.drop word.length) else none

/-- The text of `{other:?}`. Beyond ASCII, every character stands for itself. -/
def debugText : Option Char → String
  | none => "None"
  | some c =>
    let hex := String.ofList (Nat.toDigits 16 c.toNat)
    let text :=
      if c = Char.ofNat 0 then "\\0"
      else if c = '\t' then "\\t"
      else if c = '\r' then "\\r"
      else if c = '\n' then "\\n"
      else if c = Char.ofNat 39 then "\\'"
      else if c = '\\' then "\\\\"
      else if c < ' ' ∨ c = Char.ofNat 127 then "\\u\x7b" ++ hex ++ "\x7d"
      else c.toString
    s!"Some('{text}')"

def unclosedText (close : Char) (other : Option Char) : String :=
  let found := debugText other
  s!"expected ',' or '{close}', got {found}"

/-- The loop of `parse_array` and `parse_object`, over what was read before. Each turn takes a
character, so the length is enough fuel. -/
def parseList {α : Type} (item : List α → Parse α) (close : Char) : Nat → List α → Parse (List α)
  | 0, _, _ => .error (unclosedText close none)
  | fuel + 1, before, input => do
    let (a, rest) ← item before input
    match skipWhitespace rest with
    | [] => .error (unclosedText close none)
    | c :: rest =>
      if c = ',' then do
        let (more, rest) ← parseList item close fuel (a :: before) rest
        return (a :: more, rest)
      else if c = close then return ([a], rest)
      else .error (unclosedText close (some c))

def parseClosed {α : Type} (item : List α → Parse α) (close : Char) : Parse (List α) := fun rest =>
  let rest := skipWhitespace rest
  if rest.head? = some close then .ok ([], rest.tail) else parseList item close (rest.length + 1) [] rest

def parseField (p : Parse JsonValue) (before : List (List Char × JsonValue)) : Parse (List Char × JsonValue) :=
  fun input => do
    let (key, rest) ← parseString (skipWhitespace input)
    ensure "duplicate object key" (key ∉ before.map Prod.fst)
    let rest ← expect ':' (skipWhitespace rest)
    let (v, rest) ← p rest
    return ((key, v), rest)

def parseArray (p : Parse JsonValue) : Parse (List JsonValue) := parseClosed (fun _ => p) ']'

def parseObject (p : Parse JsonValue) : Parse (List (List Char × JsonValue)) := parseClosed (parseField p) '}'

/-- `parse_value` with room for so many levels. -/
def parseValue : Nat → Parse JsonValue
  | 0, _ => .error "JSON nesting limit exceeded"
  | room + 1, input =>
    match skipWhitespace input with
    | [] => .error "unexpected end of input"
    | c :: rest =>
      if c = '{' then do
        let (fields, rest) ← parseObject (parseValue room) rest
        return (.object fields, rest)
      else if c = '[' then do
        let (items, rest) ← parseArray (parseValue room) rest
        return (.array items, rest)
      else if c = '"' then do
        let (s, rest) ← parseString (c :: rest)
        return (.string s, rest)
      else if c = 't' ∨ c = 'f' then
        okOr "invalid boolean" ((parseWord "true" (.bool true) (c :: rest)).or
          (parseWord "false" (.bool false) (c :: rest)))
      else if c = 'n' then okOr "invalid null" (parseWord "null" .null (c :: rest))
      else if c.isDigit ∨ c = '-' then parseNumber (c :: rest)
      else .error s!"unexpected character '{c}'"

def parseJson (input : List Char) : Except String JsonValue := do
  let (v, rest) ← parseValue 32 input
  ensure "trailing characters after JSON value" (skipWhitespace rest = [])
  return v

def hexDigitChar (n : Nat) : Char := Char.ofNat (if n < 10 then 48 + n else 87 + n)

def isControl (c : Char) : Bool := c.toNat < 32 || 127 ≤ c.toNat && c.toNat < 160

/-- One character of `to_json` of a string and of `escape_json_key`. -/
def escapeChar (c : Char) : List Char :=
  if c = '"' then ['\\', '"']
  else if c = '\\' then ['\\', '\\']
  else if c = '\n' then ['\\', 'n']
  else if c = '\r' then ['\\', 'r']
  else if c = '\t' then ['\\', 't']
  else if isControl c then '\\' :: 'u' :: [c.toNat / 4096, c.toNat / 256 % 16, c.toNat / 16 % 16,
    c.toNat % 16].map hexDigitChar
  else [c]

def quote (s : List Char) : List Char := '"' :: s.flatMap escapeChar ++ ['"']

def decimal (n : Nat) : List Char :=
  if n < 10 then [hexDigitChar n] else decimal (n / 10) ++ [hexDigitChar (n % 10)]

def intJson (n : Int) : List Char := if n < 0 then '-' :: decimal n.natAbs else decimal n.natAbs

def join : List (List Char) → List Char
  | [] => []
  | [text] => text
  | text :: texts => text ++ ',' :: join texts

def toJson : JsonValue → List Char
  | .null => "null".toList
  | .bool b => if b then "true".toList else "false".toList
  | .number n => intJson n
  | .string s => quote s
  | .array items => '[' :: join (items.attach.map fun item => toJson item.1) ++ [']']
  | .object fields =>
    '{' :: join (fields.attach.map fun field => quote field.1.1 ++ ':' :: toJson field.1.2) ++ ['}']
decreasing_by
  · exact Nat.lt_of_lt_of_le (sizeOf_lt_of_mem item.2) (by simp)
  · have hf := sizeOf_lt_of_mem field.2
    have hs : sizeOf field.1.2 < sizeOf field.1 := by
      obtain ⟨⟨key, v⟩, hm⟩ := field
      simp only [Prod.mk.sizeOf_spec]
      omega
    simp only [JsonValue.object.sizeOf_spec]
    omega

/-- Distinct keys, `i64` numbers and at most so many levels, of which a scalar is one. -/
def Nests : Nat → JsonValue → Prop
  | 0, _ => False
  | _ + 1, .number n => -2 ^ 63 ≤ n ∧ n < 2 ^ 63
  | room + 1, .array items => ∀ v ∈ items, Nests room v
  | room + 1, .object fields => (fields.map Prod.fst).Nodup ∧ ∀ field ∈ fields, Nests room field.2
  | _ + 1, _ => True

variable {c : Char} {n fuel : Nat} {s rest : List Char}

lemma hexValue_hexDigitChar : ∀ n < 16, hexValue (hexDigitChar n) = some n := by decide

lemma isDigit_hexDigitChar :
    ∀ n < 10, (hexDigitChar n).isDigit = true ∧ (hexDigitChar n).toNat - 48 = n := by
  decide

lemma parseQuad_of (hn : n < 65536) {incomplete invalid : String} :
    parseQuad incomplete invalid ([n / 4096,n / 256 % 16,n / 16 % 16,n % 16].map hexDigitChar ++ rest) =
      .ok (n,rest) := by
  have h1 := hexValue_hexDigitChar (n / 4096) (by omega)
  have h2 := hexValue_hexDigitChar (n / 256 % 16) (by omega)
  have h3 := hexValue_hexDigitChar (n / 16 % 16) (by omega)
  have h4 := hexValue_hexDigitChar (n % 16) (by omega)
  simp [parseQuad,h1,h2,h3,h4,okOr]
  omega

lemma scalar_toNat (c : Char) : scalar c.toNat = .ok c := by
  have hv : c.toNat.isValidChar := c.valid
  rw [scalar,ensure_of hv,ok_bind,Char.ofNat_toNat,pure_eq_ok]

/-- An escaped character is one turn of the loop. -/
lemma parseChars_escapeChar (c : Char) (fuel : Nat) (input : List Char) :
    parseChars (fuel + 1) (escapeChar c ++ input) = do
      let (text,rest) ← parseChars fuel input
      return (c :: text,rest) := by
  unfold escapeChar
  split_ifs with hq hb hn hr ht hc
  · subst hq
    rfl
  · subst hb
    rfl
  · subst hn
    rfl
  · subst hr
    rfl
  · subst ht
    rfl
  · have hl : c.toNat < 160 := by
      simp only [isControl,Bool.or_eq_true,Bool.and_eq_true,decide_eq_true_eq] at hc
      omega
    have hu : parseEscape ('u' :: ([c.toNat / 4096,c.toNat / 256 % 16,c.toNat / 16 % 16,c.toNat % 16].map
        hexDigitChar ++ input)) = .ok (c,input) := by
      change parseUnicode _ = _
      rw [parseUnicode,parseQuad_of (by omega),ok_bind]
      dsimp only
      rw [if_neg (by omega),scalar_toNat]
      rfl
    rw [cons_append,cons_append,parseChars,if_neg (by decide),if_pos rfl,hu,ok_bind]
  · have hg : ¬c < ' ' := by
      simp only [isControl,Bool.or_eq_true,decide_eq_true_eq] at hc
      intro hl
      exact hc (.inl hl)
    rw [cons_append,nil_append,parseChars,if_neg hq,if_neg hb,if_neg hg]

lemma parseChars_quoted (h : s.length < fuel) :
    parseChars fuel (s.flatMap escapeChar ++ '"' :: rest) = .ok (s,rest) := by
  induction s generalizing fuel with
  | nil =>
    obtain ⟨fuel,rfl⟩ := Nat.exists_eq_add_one.mpr h
    rfl
  | cons c s ih =>
    obtain ⟨fuel,rfl⟩ := Nat.exists_eq_add_one.mpr (Nat.zero_lt_of_lt h)
    rw [flatMap_cons,append_assoc,parseChars_escapeChar,ih (Nat.lt_of_succ_lt_succ h)]
    rfl

lemma length_le_flatMap (s : List Char) : s.length ≤ (s.flatMap escapeChar).length := by
  induction s with
  | nil => exact Nat.le_refl _
  | cons c s ih =>
    have hc : 0 < (escapeChar c).length := by
      unfold escapeChar
      split_ifs <;> simp
    rw [flatMap_cons,length_append,length_cons]
    omega

lemma parseString_quote (s rest : List Char) : parseString (quote s ++ rest) = .ok (s,rest) := by
  have hs := length_le_flatMap s
  have hq : quote s ++ rest = '"' :: (s.flatMap escapeChar ++ '"' :: rest) := by simp [quote]
  rw [hq,parseString,expect,if_pos rfl,ok_bind,parseChars_quoted]
  rw [length_append,length_cons]
  omega

lemma decimal_digits (n : Nat) : (∀ c ∈ decimal n, c.isDigit = true) ∧ digitsValue (decimal n) = n ∧
    decimal n ≠ [] ∧ (n ≠ 0 → (decimal n).head? ≠ some '0') ∧ (n = 0 → (decimal n).length = 1) := by
  induction n using decimal.induct with
  | case1 n hn =>
    have hd := isDigit_hexDigitChar n hn
    have hz : n ≠ 0 → hexDigitChar n ≠ '0' := by
      intro h0 h
      rw [h] at hd
      exact h0 hd.2.symm
    rw [decimal,if_pos hn]
    simpa [digitsValue,hd] using hz
  | case2 n hn ih =>
    obtain ⟨ha,hv,hne,hh,-⟩ := ih
    have hd := isDigit_hexDigitChar (n % 10) (by omega)
    rw [decimal,if_neg hn]
    refine ⟨?_,?_,by simp,fun _ => ?_,by omega⟩
    · intro c hc
      rcases mem_append.mp hc with hc | hc
      · exact ha c hc
      · rw [mem_singleton.mp hc]
        exact hd.1
    · rw [digitsValue,foldl_append,← digitsValue,hv,foldl_cons,foldl_nil,hd.2]
      omega
    · obtain ⟨d,l,hl⟩ := List.exists_cons_of_ne_nil hne
      rw [hl] at hh ⊢
      exact hh (by omega)

/-- What may follow a number. -/
def Quiet (rest : List Char) : Prop := rest.takeWhile Char.isDigit = []

lemma parseDigits_decimal (negative : Bool) (hq : Quiet rest)
    (hlo : -2 ^ 63 ≤ (if negative then -(n : Int) else n)) (hhi : (if negative then -(n : Int) else n) < 2 ^ 63) :
    parseDigits negative (decimal n ++ rest) = .ok (.number (if negative then -(n : Int) else n),rest) := by
  obtain ⟨ha,hv,hn,hh,ho⟩ := decimal_digits n
  have ht : (decimal n ++ rest).takeWhile Char.isDigit = decimal n := by
    rw [List.takeWhile_append_of_pos ha,hq,append_nil]
  have hd : (decimal n ++ rest).dropWhile Char.isDigit = rest := by
    have hb := List.takeWhile_append_dropWhile (p := Char.isDigit) (l := decimal n ++ rest)
    rw [ht] at hb
    exact append_cancel_left hb
  have hl : ¬(1 < (decimal n).length ∧ (decimal n).head? = some '0') := by
    rintro ⟨hle,hz⟩
    by_cases h0 : n = 0
    · rw [ho h0] at hle
      exact absurd hle (by decide)
    · exact hh h0 hz
  simp only [parseDigits,ht,hd,hv]
  rw [ensure_of hl,ok_bind,ensure_of ⟨hn,hlo,hhi⟩,ok_bind,pure_eq_ok]

lemma skipWhitespace_cons (h : isSpace c = false) : skipWhitespace (c :: rest) = c :: rest := by
  simp [skipWhitespace,h]

/-- A digit starts no other value and is no space. -/
lemma plain_of_isDigit (h : c.isDigit = true) :
    isSpace c = false ∧ c ≠ ']' ∧ c ≠ '{' ∧ c ≠ '[' ∧ c ≠ '"' ∧
    ¬(c = 't' ∨ c = 'f') ∧ c ≠ 'n' ∧ c ≠ '-' := by
  have hn : ∀ d : Char, d.isDigit = false → c ≠ d := by
    rintro d hd rfl
    rw [h] at hd
    cases hd
  simp [isSpace,hn]

lemma decimal_cons (n : Nat) : ∃ d l, decimal n = d :: l ∧ d.isDigit = true := by
  obtain ⟨ha,-,hn,-⟩ := decimal_digits n
  obtain ⟨d,l,hl⟩ := exists_cons_of_ne_nil hn
  exact ⟨d,l,hl,ha d (hl ▸ mem_cons_self)⟩

lemma toJson_cons (v : JsonValue) : ∃ d l, toJson v = d :: l ∧ isSpace d = false ∧ d ≠ ']' := by
  cases v with
  | null => exact ⟨_,_,by rw [toJson]; rfl,by decide,by decide⟩
  | bool b => cases b <;> exact ⟨_,_,by rw [toJson]; rfl,by decide,by decide⟩
  | number n =>
    rw [toJson,intJson]
    split
    · exact ⟨_,_,rfl,by decide,by decide⟩
    · obtain ⟨d,l,hl,hd⟩ := decimal_cons n.natAbs
      exact ⟨d,l,hl,(plain_of_isDigit hd).1,(plain_of_isDigit hd).2.1⟩
  | string s => exact ⟨_,_,by rw [toJson,quote,cons_append],by decide,by decide⟩
  | array items => exact ⟨_,_,by rw [toJson,cons_append],by decide,by decide⟩
  | object fields => exact ⟨_,_,by rw [toJson,cons_append],by decide,by decide⟩

def fieldJson (field : List Char × JsonValue) : List Char := quote field.1 ++ ':' :: toJson field.2

lemma toJson_array (items : List JsonValue) :
    toJson (.array items) = '[' :: join (items.map toJson) ++ [']'] := by
  simp [toJson]

lemma toJson_object (fields : List (List Char × JsonValue)) :
    toJson (.object fields) = '{' :: join (fields.map fieldJson) ++ ['}'] := by
  rw [toJson,← attach_map_subtype_val fields,map_map,attach_map_subtype_val]
  rfl

lemma join_cons {a b : List Char} {texts : List (List Char)} :
    join (a :: b :: texts) = a ++ ',' :: join (b :: texts) := rfl

lemma length_le_join (texts : List (List Char)) : texts.length ≤ (join texts).length + 1 := by
  induction texts with
  | nil => simp
  | cons a texts ih =>
    cases texts with
    | nil => simp
    | cons b texts =>
      simp only [join_cons,length_append,length_cons] at ih ⊢
      omega

lemma quiet_cons (h : c.isDigit = false) : Quiet (c :: rest) := by simp [Quiet,h]

section

variable {α : Type} {item : List α → Parse α} {text : α → List Char} {close : Char} {D : α → α → Prop}
  {pre l : List α} {P : α → Prop} {input : List Char}

/-- An element is taken off when it goes with those before it. -/
def Takes (item : List α → Parse α) (text : α → List Char) (D : α → α → Prop) (a : α) : Prop :=
  ∀ before, (∀ b ∈ before, D b a) → ∀ rest, Quiet rest → item before (text a ++ rest) = .ok (a, rest)

lemma parseList_join (hc : isSpace close = false ∧ close.isDigit = false ∧ close ≠ ',') (hn : l ≠ [])
    (hal : ∀ a ∈ l, Takes item text D a) (hl : l.Pairwise D) (hb : ∀ a ∈ l, ∀ b ∈ pre, D b a)
    (hf : l.length ≤ fuel) :
    parseList item close fuel pre (join (l.map text) ++ close :: rest) = .ok (l,rest) := by
  induction l generalizing fuel pre with
  | nil => exact absurd rfl hn
  | cons a l ih =>
    rw [forall_mem_cons] at hal hb
    rw [pairwise_cons] at hl
    obtain ⟨fuel,rfl⟩ := Nat.exists_eq_add_one.mpr (Nat.lt_of_lt_of_le (Nat.succ_pos _) hf)
    cases l with
    | nil =>
      rw [map_cons,map_nil,join,parseList,hal.1 pre hb.1 _ (quiet_cons hc.2.1),ok_bind]
      dsimp only
      rw [skipWhitespace_cons hc.1]
      dsimp only
      rw [if_neg hc.2.2,if_pos rfl,pure_eq_ok]
    | cons b l =>
      have hla : ∀ x ∈ b :: l, ∀ y ∈ a :: pre, D y x := fun x hx =>
        forall_mem_cons.mpr ⟨hl.1 x hx,hb.2 x hx⟩
      have ha := fun tail => hal.1 pre hb.1 (',' :: tail) (quiet_cons (by decide))
      rw [map_cons,map_cons,join_cons,append_assoc,cons_append,parseList,ha,ok_bind]
      dsimp only
      rw [skipWhitespace_cons (by decide)]
      dsimp only
      rw [if_pos rfl,← map_cons,ih (cons_ne_nil _ _) hal.2 hl.2 hla (Nat.le_of_succ_le_succ hf)]
      rfl

/-- What a text begins with before the closing bracket. -/
lemma parseClosed_join (hc : isSpace close = false ∧ close.isDigit = false ∧ close ≠ ',')
    (ha : ∀ a ∈ l, Takes item text D a) (hl : l.Pairwise D)
    (hh : ∀ a ∈ l, ∃ d tail, text a = d :: tail ∧ isSpace d = false ∧ d ≠ close) :
    parseClosed item close (join (l.map text) ++ close :: rest) = .ok (l,rest) := by
  cases l with
  | nil =>
    rw [map_nil,join,nil_append,parseClosed,skipWhitespace_cons hc.1]
    exact if_pos rfl
  | cons a l =>
    have hle := length_le_join ((a :: l).map text)
    have hr : parseList item close ((join ((a :: l).map text) ++ close :: rest).length + 1) []
        (join ((a :: l).map text) ++ close :: rest) = .ok (a :: l,rest) := by
      refine parseList_join hc (cons_ne_nil a l) ha hl (by simp) ?_
      rw [length_map] at hle
      rw [length_append]
      omega
    obtain ⟨d,tail,hd,hs,hn⟩ := hh a mem_cons_self
    have hhe : ∃ tail, join ((a :: l).map text) ++ close :: rest = d :: tail := by
      cases l with
      | nil => exact ⟨_,by rw [map_cons,map_nil,join,hd,cons_append]⟩
      | cons b l => exact ⟨_,by rw [map_cons,map_cons,join_cons,hd,cons_append,cons_append]⟩
    obtain ⟨tail,ht⟩ := hhe
    rw [ht] at hr ⊢
    rw [parseClosed,skipWhitespace_cons hs,if_neg (by simpa using hn),hr]

lemma forall_of_parseList
    (hi : ∀ pre input a rest, item pre input = .ok (a,rest) → (∀ b ∈ pre, D b a) ∧ P a)
    (h : parseList item close fuel pre input = .ok (l,rest)) :
    l.Pairwise D ∧ ∀ a ∈ l, (∀ b ∈ pre, D b a) ∧ P a := by
  induction fuel generalizing pre input l with
  | zero => cases h
  | succ fuel ih =>
    rw [parseList,bind_eq_ok] at h
    obtain ⟨⟨a,mid⟩,ha,h⟩ := h
    dsimp only at h
    split at h
    · cases h
    · split_ifs at h
      · rw [bind_eq_ok] at h
        obtain ⟨⟨more,last⟩,hm,h⟩ := h
        cases h
        obtain ⟨hp,hal⟩ := ih hm
        rw [pairwise_cons,forall_mem_cons]
        refine ⟨⟨fun x hx => (hal x hx).1 a mem_cons_self,hp⟩,hi _ _ _ _ ha,fun x hx => ?_⟩
        exact ⟨fun b hb => (hal x hx).1 b (mem_cons_of_mem _ hb),(hal x hx).2⟩
      · cases h
        exact ⟨pairwise_singleton _ _,forall_mem_singleton.mpr (hi _ _ _ _ ha)⟩

lemma forall_of_parseClosed
    (hi : ∀ pre input a rest, item pre input = .ok (a,rest) → (∀ b ∈ pre, D b a) ∧ P a)
    (h : parseClosed item close input = .ok (l,rest)) : l.Pairwise D ∧ ∀ a ∈ l, P a := by
  unfold parseClosed at h
  dsimp only at h
  split at h
  · cases h
    exact ⟨.nil,by simp⟩
  · obtain ⟨hp,hal⟩ := forall_of_parseList hi h
    exact ⟨hp,fun a ha => (hal a ha).2⟩

end

/-- The parser of the values takes their texts off. -/
def Inverts (p : Parse JsonValue) (v : JsonValue) : Prop :=
  ∀ rest, Quiet rest → p (toJson v ++ rest) = .ok (v, rest)

variable {p : Parse JsonValue} {field : List Char × JsonValue} {room : Nat} {v : JsonValue}
  {input : List Char}

lemma takes_field (h : Inverts p field.2) :
    Takes (parseField p) fieldJson (fun a b => a.1 ≠ b.1) field := by
  intro pre hb rest hq
  have hk : ∀ tail, skipWhitespace (quote field.1 ++ tail) = quote field.1 ++ tail := fun tail => by
    rw [quote,cons_append,cons_append,skipWhitespace_cons (by decide)]
  have hn : field.1 ∉ pre.map Prod.fst := by
    intro hm
    obtain ⟨b,hme,heq⟩ := mem_map.mp hm
    exact hb b hme heq
  rw [fieldJson,append_assoc,cons_append,parseField,hk,parseString_quote,ok_bind]
  dsimp only
  rw [ensure_of hn,ok_bind,skipWhitespace_cons (by decide),expect,if_pos rfl,ok_bind,h rest hq,ok_bind]
  rfl

lemma parseValue_number {n : Int} (hn : -2 ^ 63 ≤ n ∧ n < 2 ^ 63) (hq : Quiet rest) :
    parseValue (room + 1) (intJson n ++ rest) = .ok (.number n,rest) := by
  unfold intJson
  split
  · next hne =>
    have hv : (if true then -(n.natAbs : Int) else n.natAbs) = n := by
      simp only [if_true]
      omega
    have hr := parseDigits_decimal true (n := n.natAbs) hq (by rw [hv]; exact hn.1)
      (by rw [hv]; exact hn.2)
    rw [hv] at hr
    rw [cons_append,parseValue,skipWhitespace_cons (by decide)]
    exact hr
  · next hp =>
    have hv : (if false then -(n.natAbs : Int) else n.natAbs) = n := by
      simp only [Bool.false_eq_true,if_false]
      omega
    have hr := parseDigits_decimal false (n := n.natAbs) hq (by rw [hv]; exact hn.1)
      (by rw [hv]; exact hn.2)
    rw [hv] at hr
    obtain ⟨d,l,hl,hd⟩ := decimal_cons n.natAbs
    obtain ⟨hs,-,h1,h2,h3,h4,h5,h6⟩ := plain_of_isDigit hd
    rw [hl,cons_append] at hr ⊢
    rw [parseValue,skipWhitespace_cons hs]
    dsimp only
    rw [if_neg h1,if_neg h2,if_neg h3,if_neg h4,if_neg h5,if_pos (.inl hd),parseNumber,
      if_neg (by simpa using h6),hr]

lemma parseValue_toJson (h : Nests room v) : Inverts (parseValue room) v := by
  induction room generalizing v with
  | zero => cases v <;> exact h.elim
  | succ room ih =>
    intro rest hq
    cases v with
    | null => rw [toJson]; rfl
    | bool b => cases b <;> (rw [toJson]; rfl)
    | number n => rw [toJson]; exact parseValue_number h hq
    | string s =>
      have hs := parseString_quote s rest
      rw [quote,cons_append,cons_append] at hs
      rw [toJson,quote,cons_append,cons_append,parseValue,skipWhitespace_cons (by decide)]
      dsimp only
      rw [if_neg (by decide),if_neg (by decide),if_pos rfl,hs]
      rfl
    | array items =>
      rw [toJson_array,cons_append,cons_append,append_assoc,parseValue,skipWhitespace_cons (by decide)]
      dsimp only
      rw [if_neg (by decide),if_pos rfl,cons_append,nil_append,parseArray,parseClosed_join (by decide)
        (D := fun _ _ => True) (fun v hv _ _ => ih (h v hv))
        (pairwise_iff_getElem.mpr fun _ _ _ _ _ => trivial) fun v _ => toJson_cons v]
      rfl
    | object fields =>
      rw [toJson_object,cons_append,cons_append,append_assoc,parseValue,skipWhitespace_cons (by decide)]
      dsimp only
      rw [if_pos rfl,cons_append,nil_append,parseObject,parseClosed_join (by decide)
        (fun field hf => takes_field (ih (h.2 field hf))) (pairwise_map.mp h.1)
        fun field _ => ⟨'"',_,rfl,by decide,by decide⟩]
      rfl

lemma forall_of_parseField {P : JsonValue → Prop} {pre : List (List Char × JsonValue)}
    (hp : ∀ input v rest, p input = .ok (v,rest) → P v)
    (h : parseField p pre input = .ok (field,rest)) : (∀ b ∈ pre, b.1 ≠ field.1) ∧ P field.2 := by
  simp only [parseField,bind_eq_ok,ensure_eq_ok,pure_ok_iff] at h
  obtain ⟨⟨key,_⟩,-,_,hn,_,-,⟨v,_⟩,hv,heq⟩ := h
  cases heq
  exact ⟨fun b hb heq => hn (mem_map.mpr ⟨b,hb,heq⟩),hp _ _ _ hv⟩

lemma nests_of_parseDigits {negative : Bool}
    (h : parseDigits negative input = .ok (v,rest)) : Nests (room + 1) v := by
  simp only [parseDigits,bind_eq_ok,ensure_eq_ok,pure_ok_iff] at h
  obtain ⟨_,-,_,hn,heq⟩ := h
  cases heq
  exact hn.2

lemma nests_of_parseValue (h : parseValue room input = .ok (v,rest)) : Nests room v := by
  induction room generalizing input v rest with
  | zero => cases h
  | succ room ih =>
    rw [parseValue] at h
    split at h
    · cases h
    · split_ifs at h
      · rw [bind_eq_ok] at h
        obtain ⟨⟨fields,mid⟩,hf,h⟩ := h
        cases h
        obtain ⟨hp,ha⟩ := forall_of_parseClosed (fun _ _ _ _ => forall_of_parseField fun _ _ _ => ih) hf
        exact ⟨pairwise_map.mpr hp,ha⟩
      · rw [bind_eq_ok] at h
        obtain ⟨⟨items,mid⟩,hi,h⟩ := h
        cases h
        exact (forall_of_parseClosed (D := fun _ _ => True) (fun _ _ _ _ hv => ⟨by simp,ih hv⟩) hi).2
      · rw [bind_eq_ok] at h
        obtain ⟨⟨s,mid⟩,-,h⟩ := h
        cases h
        trivial
      · rw [okOr_eq_ok,Option.or_eq_some_iff] at h
        rcases h with h | ⟨-,h⟩ <;> obtain ⟨-,h⟩ := Option.ite_none_right_eq_some.mp h <;> cases h <;> trivial
      · rw [okOr_eq_ok] at h
        obtain ⟨-,h⟩ := Option.ite_none_right_eq_some.mp h
        cases h
        trivial
      · unfold parseNumber at h
        split at h <;> exact nests_of_parseDigits h

lemma parseJson_toJson (h : Nests 32 v) : parseJson (toJson v) = .ok v := by
  have hr := parseValue_toJson h [] rfl
  rw [append_nil] at hr
  rw [parseJson,hr]
  rfl

lemma nests_of_parseJson {text : List Char} (h : parseJson text = .ok v) : Nests 32 v := by
  simp only [parseJson,bind_eq_ok,ensure_eq_ok,pure_ok_iff] at h
  obtain ⟨⟨fd,rest⟩,hr,_,-,rfl⟩ := h
  exact nests_of_parseValue hr

/-- A value is read back from its text exactly when it fits, and what is read from any text fits. -/
theorem json_round_trips (v : JsonValue) :
    (parseJson (toJson v) = .ok v ↔ Nests 32 v) ∧
    ∀ text, parseJson text = .ok v → parseJson (toJson v) = .ok v :=
  ⟨⟨nests_of_parseJson,parseJson_toJson⟩,fun _ h => parseJson_toJson (nests_of_parseJson h)⟩

end Astrolune.Rpc

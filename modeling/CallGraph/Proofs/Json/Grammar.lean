import CallGraph.Json.Token

namespace CallGraph.Json

def IsBlank (c : Char) : Prop := c = ' ' ∨ c = '\t' ∨ c = '\n' ∨ c = '\r'

def IsHexDigit (c : Char) (d : Nat) : Prop :=
  d < 16 ∧ (c = Nat.digitChar d ∨ c = (Nat.digitChar d).toUpper)

/-- Four hexadecimal digits and the number that they are. -/
def IsCode (ds : List Char) (n : Nat) : Prop :=
  ∃ a b c d p q r s, ds = [a, b, c, d] ∧ IsHexDigit a p ∧ IsHexDigit b q ∧ IsHexDigit c r ∧
    IsHexDigit d s ∧ n = ((p * 16 + q) * 16 + r) * 16 + s

/-- The letters of the short escapes, with the characters that they stand for. -/
def shortEscapes : List (Char × Char) :=
  [('"', '"'), ('\\', '\\'), ('/', '/'), ('b', '\x08'), ('f', '\x0c'), ('n', '\n'), ('r', '\r'),
    ('t', '\t')]

/-- The ways in which a character may stand in a quoted text. -/
inductive CharSpelled : List Char → Char → Prop
  | plain {c : Char} (printable : 0x20 ≤ c.toNat) (noQuote : c ≠ '"') (noBackslash : c ≠ '\\') :
      CharSpelled [c] c
  | short {e c : Char} (listed : (e, c) ∈ shortEscapes) : CharSpelled ['\\', e] c
  | code {ds : List Char} {n : Nat} (digits : IsCode ds n) (single : n < 0xD800 ∨ 0xE000 ≤ n) :
      CharSpelled ('\\' :: 'u' :: ds) (Char.ofNat n)
  | surrogates {ds ds' : List Char} {high low : Nat} (first : IsCode ds high)
      (second : IsCode ds' low) (isHigh : 0xD800 ≤ high ∧ high < 0xDC00)
      (isLow : 0xDC00 ≤ low ∧ low < 0xE000) :
      CharSpelled ('\\' :: 'u' :: ds ++ '\\' :: 'u' :: ds')
        (Char.ofNat (0x10000 + (high - 0xD800) * 0x400 + (low - 0xDC00)))

inductive TextSpelled : List Char → List Char → Prop
  | nil : TextSpelled [] []
  | cons {w cs s : List Char} {c : Char} (char : CharSpelled w c) (rest : TextSpelled cs s) :
      TextSpelled (w ++ cs) (c :: s)

def IsDigits (cs : List Char) : Prop := cs ≠ [] ∧ ∀ c ∈ cs, c.isDigit = true

/-- The form of a number: a sign, a whole part without a needless zero, places after the point, and
a power of ten. -/
inductive IsNumeral : List Char → Prop
  | mk {sign whole places power : List Char} (isSign : sign = [] ∨ sign = ['-'])
      (isWhole : IsDigits whole) (noZero : whole.head? = some '0' → whole = ['0'])
      (isPlaces : places = [] ∨ ∃ ds, IsDigits ds ∧ places = '.' :: ds)
      (isPower : power = [] ∨ ∃ e s ds, (e = 'e' ∨ e = 'E') ∧ (s = [] ∨ s = ['+'] ∨ s = ['-']) ∧
        IsDigits ds ∧ power = e :: (s ++ ds)) :
      IsNumeral (sign ++ (whole ++ (places ++ power)))

namespace Token

/-- How a token is written. A numeral is the number that it is read as. -/
inductive Spelled : List Char → Token → Prop
  | openArr : Spelled ['['] .openArr
  | closeArr : Spelled [']'] .closeArr
  | openObj : Spelled ['\x7b'] .openObj
  | closeObj : Spelled ['\x7d'] .closeObj
  | colon : Spelled [':'] .colon
  | comma : Spelled [','] .comma
  | null : Spelled ['n', 'u', 'l', 'l'] .null
  | yes : Spelled ['t', 'r', 'u', 'e'] (.bool true)
  | no : Spelled ['f', 'a', 'l', 's', 'e'] (.bool false)
  | num {cs : List Char} {n : Number} (numeral : IsNumeral cs)
      (value : Number.ofChars? cs = some n) : Spelled cs (.num n)
  | str {cs s : List Char} (text : TextSpelled cs s) :
      Spelled ('"' :: (cs ++ ['"'])) (.str (.ofList s))

/-- The numbers and the constants, which nothing but what follows them brings to an end. -/
def IsWord : Token → Prop
  | null => True
  | bool _ => True
  | num _ => True
  | _ => False

end Token

/-- A word does not go on here: the text is at its end, or a blank or a mark comes. -/
def Ends (cs : List Char) : Prop :=
  ∀ c ∈ cs.head?, IsBlank c ∨ c ∈ ['[', ']', '\x7b', '\x7d', ':', ',']

/-- A text made of tokens, with blanks anywhere between them. -/
inductive Lexes : List Char → List Token → Prop
  | nil : Lexes [] []
  | blank {c : Char} {cs : List Char} {ts : List Token} (isBlank : IsBlank c) (rest : Lexes cs ts) :
      Lexes (c :: cs) ts
  | token {w cs : List Char} {t : Token} {ts : List Token} (spelled : t.Spelled w)
      (ends : t.IsWord → Ends cs) (rest : Lexes cs ts) : Lexes (w ++ cs) (t :: ts)

theorem Lexes.mark {c : Char} {cs : List Char} {t : Token} {ts : List Token} (spelled : t.Spelled [c])
    (notWord : ¬ t.IsWord) (rest : Lexes cs ts) : Lexes (c :: cs) (t :: ts) :=
  .token spelled (fun h => absurd h notWord) rest

theorem Lexes.blanks {bs cs : List Char} {ts : List Token} (h : ∀ c ∈ bs, IsBlank c)
    (rest : Lexes cs ts) : Lexes (bs ++ cs) ts := by
  induction bs with
  | nil => exact rest
  | cons b bs ih =>
    have hbs := ih fun c hc => h c (by simp [hc])
    exact .blank (h b (by simp)) hbs

theorem Ends.blanks {bs cs : List Char} (h : ∀ c ∈ bs, IsBlank c) (rest : Ends cs) :
    Ends (bs ++ cs) := by
  cases bs with
  | nil => exact rest
  | cons b bs =>
    intro c hc
    obtain rfl : b = c := by simpa using hc
    exact .inl (h b (by simp))

mutual

/-- The tokens of a value. -/
def tokens : Json → List Token
  | null => [.null]
  | bool b => [.bool b]
  | num n => [.num n]
  | str s => [.str s]
  | arr [] => [.openArr, .closeArr]
  | arr (v :: vs) => .openArr :: (tokens v ++ (itemTokens vs ++ [.closeArr]))
  | obj [] => [.openObj, .closeObj]
  | obj ((k, v) :: fs) =>
    .openObj :: .str k :: .colon :: (tokens v ++ (fieldTokens fs ++ [.closeObj]))

/-- The items after the first. -/
def itemTokens : List Json → List Token
  | [] => []
  | v :: vs => .comma :: (tokens v ++ itemTokens vs)

/-- The fields after the first. -/
def fieldTokens : List (String × Json) → List Token
  | [] => []
  | (k, v) :: fs => .comma :: .str k :: .colon :: (tokens v ++ fieldTokens fs)

end

/-- The texts of a value. -/
def Spelled (cs : List Char) (v : Json) : Prop := Lexes cs v.tokens

theorem num_mem_itemTokens (n : Number) (vs : List Json) :
    .num n ∈ itemTokens vs ↔ ∃ v ∈ vs, .num n ∈ v.tokens := by
  induction vs with
  | nil => simp [itemTokens]
  | cons v vs ih => simp [itemTokens, ih]

theorem num_mem_arr (n : Number) (vs : List Json) :
    .num n ∈ (arr vs).tokens ↔ ∃ v ∈ vs, .num n ∈ v.tokens := by
  cases vs with
  | nil => simp [tokens]
  | cons v vs => simp [tokens, num_mem_itemTokens]

theorem num_mem_fieldTokens (n : Number) (fs : List (String × Json)) :
    .num n ∈ fieldTokens fs ↔ ∃ f ∈ fs, .num n ∈ f.2.tokens := by
  induction fs with
  | nil => simp [fieldTokens]
  | cons f fs ih => simp [fieldTokens, ih]

theorem num_mem_obj (n : Number) (fs : List (String × Json)) :
    .num n ∈ (obj fs).tokens ↔ ∃ f ∈ fs, .num n ∈ f.2.tokens := by
  cases fs with
  | nil => simp [tokens]
  | cons f fs => simp [tokens, num_mem_fieldTokens]

/-- Induction on the items and on the values of the fields. -/
theorem induction {P : Json → Prop} (hnull : P null) (hbool : ∀ b, P (bool b))
    (hnum : ∀ n, P (num n)) (hstr : ∀ s, P (str s)) (harr : ∀ vs, (∀ v ∈ vs, P v) → P (arr vs))
    (hobj : ∀ fs, (∀ f ∈ fs, P f.2) → P (obj fs)) (v : Json) : P v := by
  refine @Json.rec P (fun vs => ∀ v ∈ vs, P v) (fun fs => ∀ f ∈ fs, P f.2) (fun f => P f.2)
    hnull hbool hnum hstr harr hobj ?_ ?_ ?_ ?_ ?_ v
  all_goals simp_all

end CallGraph.Json

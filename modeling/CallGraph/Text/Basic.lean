namespace CallGraph.Text

/-- The code points with the Unicode property White_Space. -/
def isBlank (c : Char) : Bool :=
  let n := c.toNat
  (9 ≤ n && n ≤ 13) || n == 0x20 || n == 0x85 || n == 0xA0 || n == 0x1680 ||
    (0x2000 ≤ n && n ≤ 0x200A) || n == 0x2028 || n == 0x2029 || n == 0x202F || n == 0x205F ||
    n == 0x3000

/-- What stands before the first separator, or everything if there is none. -/
def before (separator : Char) (cs : List Char) : List Char := cs.takeWhile (· != separator)

/-- Drops the white space at the end. -/
def trimEnd (cs : List Char) : List Char := (cs.reverse.dropWhile isBlank).reverse

/-- Whether a text occurs in another. -/
def occursIn (part : List Char) : List Char → Bool
  | [] => part.isEmpty
  | c :: cs => part.isPrefixOf (c :: cs) || occursIn part cs

/-- The first place in `b`, at most `range` away from `i` and not used so far, that holds `c`. -/
def freePlace? (range : Nat) (b : List Char) (used : List Nat) (i : Nat) (c : Char) : Option Nat :=
  (b.zipIdx.find? fun (d, j) => c == d && i ≤ j + range && j ≤ i + range && !used.contains j).map (·.2)

/-- Pairs each character of `a` with an equal one near its place in `b`: the paired characters of
`a` in their order, and the used places of `b`. -/
def pairing (range : Nat) (a b : List Char) : List Char × List Nat :=
  let (paired, used) := a.zipIdx.foldl (fun ((paired, used) : List Char × List Nat) (c, i) =>
    match freePlace? range b used i c with
    | some j => (c :: paired, j :: used)
    | none => (paired, used)) ([], [])
  (paired.reverse, used)

/-- How alike two texts are, from 0 to 1: the mean of the share of paired characters in each text and
the share of pairs in order, two pairs in each other's place counting as one. -/
def similarity (a b : List Char) : Float :=
  let (paired, used) := pairing (max a.length b.length / 2 - 1) a b
  let partners := (b.zipIdx.filter fun (_, j) => used.contains j).map (·.1)
  let swaps := (paired.zip partners).countP (fun (c, d) => c != d) / 2
  let pairs := Float.ofNat paired.length
  if a.isEmpty && b.isEmpty then 1
  else if paired.isEmpty then 0
  else (pairs / .ofNat a.length + pairs / .ofNat b.length + (pairs - .ofNat swaps) / pairs) / 3

end CallGraph.Text

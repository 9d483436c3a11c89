import CallGraph.Proofs.Path
import CallGraph.Proofs.Text.Utf8
import Mathlib.Data.List.TakeDrop
import Mathlib.Data.List.TakeWhile
import Mathlib.Logic.Relation

namespace CallGraph.Path

/-- The pieces between slashes, without the empty ones and single dots. -/
def parts (bs : Bytes) : List Bytes :=
  (bs.splitOn slash).filter fun piece => piece ≠ [] ∧ piece ≠ [dot]

/-- The bytes of the components that matter: the root of an absolute path, and the parts. -/
def significant (p : Path) : List Bytes :=
  (if p.bytes.head? = some slash then [[slash]] else []) ++ parts p.bytes

/-- The significant component that names the file: the last, unless it is the root or the parent. -/
def named? (p : Path) : Option Bytes :=
  p.significant.getLast?.filter fun c => c ≠ [slash] ∧ c ≠ [dot, dot]

/-- The components that stand for pieces. -/
def names (p : Path) : List Component := p.pieces.filterMap Component.ofPiece?

theorem bytes_ofPiece? (piece : Bytes) : (Component.ofPiece? piece).map Component.bytes =
    Option.guard (fun piece => decide (piece ≠ [] ∧ piece ≠ [dot])) piece := by
  unfold Component.ofPiece?
  split_ifs with hnone hparent
  · have hdrop : ¬(piece ≠ [] ∧ piece ≠ [dot]) := fun h => hnone.elim h.1 h.2
    simp [Option.guard, hdrop]
  · subst hparent
    rfl
  · have hkeep : piece ≠ [] ∧ piece ≠ [dot] := not_or.mp hnone
    simp [Option.guard, hkeep, Component.bytes]

theorem map_bytes_names (p : Path) : p.names.map Component.bytes = parts p.bytes := by
  rw [names, List.map_filterMap, parts, ← List.filterMap_eq_filter]
  exact List.filterMap_congr fun piece _ => bytes_ofPiece? piece

/-- A piece stands for the parent, or for a name that is neither the root's nor the parent's. -/
theorem mem_names (p : Path) (c : Component) (h : c ∈ p.names) :
    c = .parent ∨ ∃ n, c = .name n ∧ n ≠ [slash] ∧ n ≠ [dot, dot] := by
  obtain ⟨piece, hpiece, hc⟩ := List.mem_filterMap.mp h
  have hslash := slash_not_mem_of_mem_splitOn p.bytes piece hpiece
  unfold Component.ofPiece? at hc
  split_ifs at hc with hnone hparent
  · exact .inl (Option.some.inj hc).symm
  · refine .inr ⟨piece, (Option.some.inj hc).symm, ?_, hparent⟩
    intro hroot
    simp [hroot] at hslash

/-- In front of the pieces' components stands the root, a dot or nothing. Only the root matters. -/
inductive Front : List Component → List Bytes → Prop
  | root : Front [.root] [[slash]]
  | here : Front [.here] []
  | none : Front [] []

theorem exists_front (p : Path) : ∃ front front', Front front front' ∧
    p.components = front ++ p.names ∧ p.significant = front' ++ p.names.map Component.bytes := by
  have habs : p.isAbsolute = true ↔ p.bytes.head? = some slash := beq_iff_eq
  rw [components, significant, map_bytes_names]
  simp only [habs]
  split_ifs with h1 h2
  · exact ⟨_, _, .root, rfl, rfl⟩
  · exact ⟨_, _, .here, rfl, rfl⟩
  · exact ⟨_, _, .none, rfl, rfl⟩

theorem fileName?_eq_named? (p : Path) : p.fileName? = p.named? := by
  obtain ⟨front, front', hfront, hcomponents, hsignificant⟩ := exists_front p
  rw [fileName?, named?, hcomponents, hsignificant]
  obtain hnames | ⟨rest, c, hnames⟩ := List.eq_nil_or_concat' p.names
  · rw [hnames]
    cases hfront <;> rfl
  · rw [hnames, List.map_append, ← List.append_assoc, ← List.append_assoc, List.map_singleton,
      List.getLast?_concat, List.getLast?_concat]
    obtain rfl | ⟨n, rfl, hroot, hparent⟩ := mem_names p c (by simp [hnames])
    · rfl
    · simp [Option.filter, Component.bytes, hroot, hparent]

theorem parent?_of_concat (p : Path) (front : List Component) (c : Component)
    (h : p.components = front ++ [c]) (hc : c ≠ .root) : p.parent? = some front := by
  rw [parent?, h, List.getLast?_concat, List.dropLast_concat]
  cases c with
  | root => exact absurd rfl hc
  | here | parent | name n => rfl

/-- The directory's name is the last significant component but one. A dot that stands first names the
same directory as no component. -/
theorem directoryName_eq (p : Path) :
    p.directoryName = (p.significant.reverse[1]?.map Utf8.text).getD "." := by
  obtain ⟨front, front', hfront, hcomponents, hsignificant⟩ := exists_front p
  obtain hnames | ⟨rest, c, hnames⟩ := List.eq_nil_or_concat' p.names
  · rw [directoryName, parent?, hcomponents, hsignificant, hnames]
    cases hfront <;> rfl
  · have hroot : c ≠ .root := by
      obtain rfl | ⟨n, rfl, -⟩ := mem_names p c (by simp [hnames]) <;> exact nofun
    rw [hnames, ← List.append_assoc] at hcomponents
    rw [hnames, List.map_append, ← List.append_assoc, List.map_singleton] at hsignificant
    rw [directoryName, parent?_of_concat p _ c hcomponents hroot, hsignificant, List.reverse_concat,
      List.getElem?_cons_succ, ← List.head?_eq_getElem?, List.head?_reverse, Option.bind_some]
    -- the directory is what stands in front, or the last of the other pieces
    obtain rfl | ⟨rest', d, rfl⟩ := List.eq_nil_or_concat' rest
    · cases hfront <;> rfl
    · rw [List.map_append, ← List.append_assoc, ← List.append_assoc, List.map_singleton,
        List.getLast?_concat, List.getLast?_concat]
      rfl

theorem ne_of_absent {β : Type} [BEq β] [LawfulBEq β] {separator : β} {xs : List β}
    (h : separator ∉ xs) : ∀ x ∈ xs, (x != separator) = true := by
  intro x hx
  rw [bne_iff_ne]
  intro heq
  exact h (heq ▸ hx)

theorem span_dot (front rest : Bytes) (h : dot ∉ front) :
    (front ++ dot :: rest).span (· != dot) = (front, dot :: rest) := by
  rw [List.span_eq_takeWhile_dropWhile, List.takeWhile_append_of_pos (ne_of_absent h),
    List.dropWhile_append_of_pos (ne_of_absent h)]
  simp

theorem extension?_eq_some_iff (p : Path) (e : Bytes) :
    p.extension? = some e ↔ dot ∉ e ∧ ∃ stem ≠ [], p.fileName? = some (stem ++ dot :: e) := by
  rw [extension?, Option.bind_eq_some_iff]
  constructor
  · intro h
    obtain ⟨name, hname, he⟩ := h
    by_cases hdot : dot ∈ name.reverse
    · obtain ⟨after, front, hsplit, hafter⟩ := List.eq_append_cons_of_mem hdot
      rw [hsplit, span_dot after front hafter] at he
      cases front with
      | nil => cases he
      | cons b front =>
        obtain rfl := Option.some.inj he
        have hjoin : name = (b :: front).reverse ++ dot :: after.reverse := by
          rw [← List.reverse_reverse name, hsplit]
          simp
        exact ⟨by simpa using hafter, _, by simp, hjoin ▸ hname⟩
    · rw [List.span_eq_takeWhile_dropWhile,
        List.dropWhile_eq_nil_iff.mpr (ne_of_absent hdot)] at he
      cases he
  · intro h
    obtain ⟨hdot, stem, hstem, hname⟩ := h
    refine ⟨_, hname, ?_⟩
    have hsplit : (stem ++ dot :: e).reverse = e.reverse ++ dot :: stem.reverse := by simp
    obtain ⟨b, front, hfront⟩ := List.exists_cons_of_ne_nil (List.reverse_ne_nil_iff.mpr hstem)
    rw [hsplit, span_dot _ _ (by simpa using hdot), hfront]
    exact congrArg some e.reverse_reverse

theorem dot_not_mem_decode (bs : Bytes) (h : dot ∉ bs) : '.' ∉ Utf8.decode bs := by
  intro hc
  obtain ⟨b, hb, hcode⟩ := (Utf8.resembles_decode bs).exists_mem '.' hc (by decide)
  obtain rfl : b = dot := UInt8.toNat_inj.mp hcode
  exact h hb

/-- A name can be cut at its first dot and then decoded, or the other way round. -/
theorem before_decode (bs : Bytes) :
    Text.before '.' (Utf8.decode bs) = Utf8.decode (bs.takeWhile (· != dot)) := by
  rw [Text.before]
  by_cases hdot : dot ∈ bs
  · obtain ⟨front, rest, rfl, hfront⟩ := List.eq_append_cons_of_mem hdot
    have hdecode := Utf8.decode_append front rest dot (by decide)
    change _ = _ ++ '.' :: _ at hdecode
    rw [hdecode, List.takeWhile_append_of_pos (ne_of_absent hfront),
      List.takeWhile_append_of_pos (ne_of_absent (dot_not_mem_decode front hfront))]
    simp
  · rw [List.takeWhile_eq_self_iff.mpr (ne_of_absent hdot),
      List.takeWhile_eq_self_iff.mpr (ne_of_absent (dot_not_mem_decode bs hdot))]

/-- A shorter way to write a path: without a second slash, a slash at the end or a dot that stands for
a component. What is left keeps its start, so that no path becomes absolute or ceases to be so. -/
inductive Shortens : Bytes → Bytes → Prop
  | doubleSlash (x y : Bytes) : Shortens (x ++ slash :: slash :: y) (x ++ slash :: y)
  | lastSlash (x : Bytes) (h : x ≠ []) : Shortens (x ++ [slash]) x
  | innerDot (x y : Bytes) : Shortens (x ++ slash :: dot :: slash :: y) (x ++ slash :: y)
  | lastDot (x : Bytes) : Shortens (x ++ [slash, dot]) (x ++ [slash])
  | firstDot (y : Bytes) (h : y.head? ≠ some slash) : Shortens (dot :: slash :: y) y
  | onlyDot : Shortens [dot] []

theorem parts_append (x y : Bytes) : parts (x ++ slash :: y) = parts x ++ parts y := by
  rw [parts, List.splitOn_append_cons_self, List.filter_append]
  rfl

theorem parts_nil : parts [] = [] := by
  rw [parts, List.splitOn_nil]
  rfl

theorem parts_dot : parts [dot] = [] := by
  rw [parts, List.splitOn_eq_singleton (by decide)]
  rfl

theorem parts_of_shortens (x y : Bytes) (h : Shortens x y) : parts x = parts y := by
  have hslash (z : Bytes) : parts (slash :: z) = parts z := by
    rw [← List.nil_append (slash :: z), parts_append, parts_nil, List.nil_append]
  have hdot (z : Bytes) : parts (dot :: slash :: z) = parts z := by
    rw [← List.singleton_append, parts_append, parts_dot, List.nil_append]
  cases h with
  | doubleSlash x y => rw [parts_append, parts_append, hslash]
  | lastSlash => rw [parts_append, parts_nil, List.append_nil]
  | innerDot x y => rw [parts_append, parts_append, hdot]
  | lastDot x => rw [parts_append, parts_append, parts_dot, parts_nil]
  | firstDot => exact hdot y
  | onlyDot => rw [parts_dot, parts_nil]

theorem head?_of_shortens (x y : Bytes) (h : Shortens x y) :
    x.head? = some slash ↔ y.head? = some slash := by
  have hfront (u v w : Bytes) : (u ++ slash :: v).head? = (u ++ slash :: w).head? := by
    cases u <;> rfl
  cases h with
  | doubleSlash x y => rw [hfront]
  | lastSlash _ h => rw [List.head?_append_of_ne_nil _ h]
  | innerDot x y => rw [hfront]
  | lastDot x => rw [hfront]
  | firstDot _ h => simp [h, show dot ≠ slash by decide]
  | onlyDot => decide

/-- However often a path is shortened or lengthened, its significant components stay. -/
theorem significant_of_respelled (p q : Path) (h : Relation.EqvGen Shortens p.bytes q.bytes) :
    p.significant = q.significant := by
  obtain ⟨x⟩ := p
  obtain ⟨y⟩ := q
  change Relation.EqvGen Shortens x y at h
  induction h with
  | rel x y h => simp only [significant, parts_of_shortens x y h, head?_of_shortens x y h]
  | refl x => rfl
  | symm x y _ ih => exact ih.symm
  | trans x y z _ _ ih ih' => exact ih.trans ih'

theorem hasSource_iff (l : Language) (p : Path) : l.hasSource p = true ↔
    ∃ stem ≠ [], p.named? = some (stem ++ dot :: Bytes.ofString l.extension) := by
  have hdot : dot ∉ Bytes.ofString l.extension := by cases l <;> decide
  rw [Language.hasSource, beq_iff_eq, extension?_eq_some_iff, fileName?_eq_named?]
  exact and_iff_right hdot

theorem symbolicName_eq (p : Path) : p.symbolicName =
    (p.named?.map fun name => Utf8.text (name.takeWhile (· != dot))).getD "" := by
  rw [symbolicName, fileName?_eq_named?]
  cases p.named? with
  | none => rfl
  | some name => exact congrArg String.ofList (before_decode name)

/-- The names that are read off a path, and whether it is a source file, follow from its significant
components alone: the directory's name is the last but one, or a dot. The name is the last up to its
first dot, and none if that is the root or the parent. A source file has the extension behind at least
one byte and a dot. So slashes and dots that can be left out of a path change none of them. -/
theorem names_of_significant (p : Path) :
    p.directoryName = (p.significant.reverse[1]?.map Utf8.text).getD "." ∧
    p.symbolicName = (p.named?.map fun name => Utf8.text (name.takeWhile (· != dot))).getD "" ∧
    (∀ name, Utf8.text (name.takeWhile (· != dot)) = .ofList (Text.before '.' (Utf8.decode name))) ∧
    (∀ l : Language, l.hasSource p = true ↔
      ∃ stem ≠ [], p.named? = some (stem ++ dot :: Bytes.ofString l.extension)) ∧
    ∀ q : Path, Relation.EqvGen Shortens p.bytes q.bytes →
      p.directoryName = q.directoryName ∧ p.symbolicName = q.symbolicName ∧
      ∀ l : Language, l.hasSource p = l.hasSource q := by
  refine ⟨directoryName_eq p, symbolicName_eq p, ?_, fun l => hasSource_iff l p, ?_⟩
  · intro name
    rw [Utf8.text, before_decode]
  · intro q h
    have hsame := significant_of_respelled p q h
    have hnamed : p.named? = q.named? := by rw [named?, named?, hsame]
    refine ⟨?_, ?_, ?_⟩
    · rw [directoryName_eq, directoryName_eq, hsame]
    · rw [symbolicName_eq, symbolicName_eq, hnamed]
    · intro l
      rw [Bool.eq_iff_iff, hasSource_iff, hasSource_iff, hnamed]

/-- A path with a dot in front, a slash too many inside and one at the end. -/
theorem names_of_significant_respelled :
    Relation.EqvGen Shortens (ofString "./pkg//mod.x.py/").bytes (ofString "pkg/mod.x.py").bytes ∧
    (ofString "./pkg//mod.x.py/").directoryName = (ofString "pkg/mod.x.py").directoryName ∧
    (ofString "./pkg//mod.x.py/").symbolicName = (ofString "pkg/mod.x.py").symbolicName := by
  have hlast : Shortens (ofString "./pkg//mod.x.py/").bytes (ofString "./pkg//mod.x.py").bytes :=
    .lastSlash (ofString "./pkg//mod.x.py").bytes (by decide)
  have hinner : Shortens (ofString "./pkg//mod.x.py").bytes (ofString "./pkg/mod.x.py").bytes :=
    .doubleSlash (ofString "./pkg").bytes (ofString "mod.x.py").bytes
  have hfirst : Shortens (ofString "./pkg/mod.x.py").bytes (ofString "pkg/mod.x.py").bytes :=
    .firstDot (ofString "pkg/mod.x.py").bytes (by decide)
  have hall := (Relation.EqvGen.rel _ _ hlast).trans _ _ _
    ((Relation.EqvGen.rel _ _ hinner).trans _ _ _ (.rel _ _ hfirst))
  have hsame := (names_of_significant _).2.2.2.2 _ hall
  exact ⟨hall, hsame.1, hsame.2.1⟩

end CallGraph.Path

import CallGraph.Files.Walk
import CallGraph.Proofs.Files.Resolve
import CallGraph.Proofs.KeyMap
import CallGraph.Proofs.Path
import CallGraph.Proofs.Scan.Gather
import Mathlib.Tactic.Choose

namespace CallGraph.Tree

/-- The entries of each directory have different names, and names that can stand in a path. -/
inductive Proper : Tree → Prop
  | file {content : Bytes} : Proper (file content)
  | link {target : Path} : Proper (link target)
  | dir {listable : Bool} {entries : List (Bytes × Tree)}
      (names : ∀ e ∈ entries, IsEntryName e.1) (distinct : (entries.map (·.1)).Nodup)
      (below : ∀ e ∈ entries, Proper e.2) : Proper (dir listable entries)

theorem child?_eq_some_iff {listable : Bool} {entries : List (Bytes × Tree)}
    (hn : (entries.map (·.1)).Nodup) (name : Bytes) (t : Tree) :
    (dir listable entries).child? name = some t ↔ (name, t) ∈ entries :=
  find?_key_eq_some_iff entries hn name t

theorem at?_append (t : Tree) (front back : Location) :
    t.at? (front ++ back) = (t.at? front).bind (at? · back) := by
  induction front generalizing t with
  | nil => rfl
  | cons n front ih =>
    rw [List.cons_append, at?_cons, at?_cons]
    cases t.child? n with
    | none => rfl
    | some t' => exact ih t'

theorem isDir_of_child? {t node : Tree} {name : Bytes} (h : t.child? name = some node) :
    t.isDir = true := by
  cases t with
  | dir listable entries => rfl
  | file content => cases h
  | link target => cases h

/-- The way to a location leads through directories alone. -/
theorem isDir_front (t node : Tree) (front back : Location) (hb : back ≠ [])
    (h : t.at? (front ++ back) = some node) : (t.at? front).any isDir = true := by
  rw [at?_append] at h
  cases hf : t.at? front with
  | none => simp [hf] at h
  | some t' =>
    cases back with
    | nil => exact absurd rfl hb
    | cons name rest =>
      rw [hf, Option.bind_some, at?_cons] at h
      cases hc : t'.child? name with
      | none => simp [hc] at h
      | some t'' => exact isDir_of_child? hc

theorem Proper.at? {t : Tree} (ht : t.Proper) {names : Location} {node : Tree}
    (h : t.at? names = some node) : node.Proper ∧ ∀ n ∈ names, IsEntryName n := by
  induction names generalizing t with
  | nil =>
    obtain rfl := Option.some.inj h
    exact ⟨ht, by simp⟩
  | cons n names ih =>
    rw [at?_cons] at h
    cases hc : t.child? n with
    | none => simp [hc] at h
    | some t' =>
      rw [hc, Option.bind_some] at h
      cases ht with
      | file => cases hc
      | link => cases hc
      | @dir listable entries hnames hdistinct hbelow =>
        have hmem := (child?_eq_some_iff hdistinct n t').mp hc
        obtain ⟨hnode, hrest⟩ := ih (hbelow _ hmem) h
        refine ⟨hnode, ?_⟩
        intro m hm
        obtain rfl | hm := List.mem_cons.mp hm
        · exact hnames _ hmem
        · exact hrest m hm

/-- Why the directory at a path cannot be listed. -/
def refusal? (path : Path) (listable : Bool) : Option IoError :=
  if maxPath < path.bytes.length then some .nameTooLong
  else if listable then none else some .permissionDenied

theorem walkEntries_eq_map (language : Language) (path : Path) (es : List (Bytes × Tree)) :
    walkEntries language path es = es.map fun e => (e.1, walk language (path.join e.1) e.2) := by
  induction es with
  | nil => rfl
  | cons e es ih => rw [walkEntries, ih, List.map_cons]

theorem inOrder_map {α β : Type} (es : List (Bytes × α)) (f : Bytes × α → β) :
    inOrder (es.map fun e => (e.1, f e)) = (inOrder es).map fun e => (e.1, f e) := by
  rw [inOrder, inOrder, List.map_mergeSort]
  intro a ha b hb
  rfl

/-- A directory that can be listed is walked entry by entry, in order of the names. -/
theorem walk_dir (language : Language) (path : Path) (listable : Bool) (es : List (Bytes × Tree)) :
    walk language path (dir listable es) =
      match refusal? path listable with
      | some cause => .error (path, cause)
      | none => List.flatten <$>
          (inOrder es).mapM fun e => walk language (path.join e.1) e.2 := by
  rw [walk, walkEntries_eq_map, inOrder_map, List.mapM_map, refusal?]
  by_cases hlong : maxPath < path.bytes.length
  · rw [if_pos hlong, if_pos hlong]
  · rw [if_neg hlong, if_neg hlong]
    cases listable with
    | true => rfl
    | false => rfl

theorem mem_inOrder {α : Type} (es : List (Bytes × α)) (e : Bytes × α) : e ∈ inOrder es ↔ e ∈ es :=
  (List.mergeSort_perm es _).mem_iff

/-- Different names in order are strictly increasing. -/
theorem inOrder_sorted {α : Type} (es : List (Bytes × α)) (hn : (es.map (·.1)).Nodup) :
    (inOrder es).Pairwise fun a b => a.1 < b.1 := by
  have hle : (inOrder es).Pairwise fun a b => decide (a.1 ≤ b.1) = true := by
    apply List.pairwise_mergeSort
    · intro a b c hab hbc
      simp only [decide_eq_true_eq] at *
      exact List.le_trans hab hbc
    · intro a b
      simp only [Bool.or_eq_true, decide_eq_true_eq]
      exact List.le_total a.1 b.1
  have hne : (inOrder es).Pairwise fun a b => a.1 ≠ b.1 := by
    have hp := (List.mergeSort_perm es fun a b => decide (a.1 ≤ b.1)).map (·.1)
    exact List.pairwise_map.mp (hp.nodup_iff.mpr hn)
  refine hle.imp₂ ?_ hne
  intro a b hab hne
  have hab : a.1 ≤ b.1 := by simpa using hab
  exact (List.le_iff_lt_or_eq.mp hab).resolve_right hne

/-- Different names have one order. -/
theorem inOrder_eq {α : Type} {es es' : List (Bytes × α)} (hp : es.Perm es')
    (hs : es'.Pairwise fun a b => a.1 < b.1) : inOrder es = es' := by
  have hne : es'.Pairwise fun a b => a.1 ≠ b.1 := by
    apply hs.imp
    intro a b hab heq
    rw [heq] at hab
    exact List.lt_irrefl _ hab
  have hn : (es.map (·.1)).Nodup := (hp.map (·.1)).nodup_iff.mpr (List.pairwise_map.mpr hne)
  refine ((List.mergeSort_perm es _).trans hp).eq_of_pairwise ?_ (inOrder_sorted es hn) hs
  intro a b _ _ hab hba
  exact absurd (List.lt_trans hab hba) (List.lt_irrefl _)

theorem walk_perm {language : Language} {path : Path} {listable : Bool}
    {es es' : List (Bytes × Tree)} (hp : es.Perm es') (hs : es'.Pairwise fun a b => a.1 < b.1)
    (hr : refusal? path listable = none) : walk language path (dir listable es) =
      List.flatten <$> es'.mapM fun e => walk language (path.join e.1) e.2 := by
  rw [walk_dir, hr, inOrder_eq hp hs]

/-- The locations of the source files at and below a path, in order. -/
structure Lists (language : Language) (path : Path) (t : Tree) (found : List Location) : Prop where
  mem : ∀ names, names ∈ found ↔ (∃ content, t.at? names = some (file content)) ∧
    language.hasSource (path.below names) = true
  sorted : found.Pairwise (· < ·)

/-- All directories at and below a path can be listed. -/
def Open (path : Path) (t : Tree) : Prop :=
  ∀ names listable es, t.at? names = some (dir listable es) →
    refusal? (path.below names) listable = none

section

variable {language : Language} {path : Path} {listable : Bool} {es : List (Bytes × Tree)}

theorem at?_entry (hn : (es.map (·.1)).Nodup) {e : Bytes × Tree} (he : e ∈ es) (rest : Location) :
    (dir listable es).at? (e.1 :: rest) = e.2.at? rest := by
  rw [at?_cons, (child?_eq_some_iff hn e.1 e.2).mpr he, Option.bind_some]

theorem exists_entry (hn : (es.map (·.1)).Nodup) {name : Bytes} {rest : Location} {node : Tree}
    (h : (dir listable es).at? (name :: rest) = some node) :
    ∃ t, (name, t) ∈ es ∧ t.at? rest = some node := by
  rw [at?_cons] at h
  cases hc : (dir listable es).child? name with
  | none => simp [hc] at h
  | some t =>
    rw [hc, Option.bind_some] at h
    exact ⟨t, (child?_eq_some_iff hn name t).mp hc, h⟩

theorem at?_leaf {t node : Tree} {names : Location} (ht : t.isDir = false)
    (h : t.at? names = some node) : names = [] ∧ node = t := by
  cases names with
  | nil => exact ⟨rfl, (Option.some.inj h).symm⟩
  | cons name rest =>
    rw [at?_cons] at h
    cases hc : t.child? name with
    | none => simp [hc] at h
    | some t' =>
      rw [isDir_of_child? hc] at ht
      cases ht

theorem open_leaf {t : Tree} (ht : t.isDir = false) : Open path t := by
  intro names listable es h
  obtain ⟨-, rfl⟩ := at?_leaf ht h
  cases ht

theorem lists_file (language : Language) (path : Path) (content : Bytes) :
    Lists language path (file content) (if language.hasSource path then [[]] else []) := by
  constructor
  · intro names
    constructor
    · intro h
      split at h
      · obtain rfl := List.mem_singleton.mp h
        exact ⟨⟨content, rfl⟩, ‹_›⟩
      · cases h
    · rintro ⟨⟨c, hfile⟩, hsource⟩
      obtain ⟨rfl, -⟩ := at?_leaf rfl hfile
      have hsource : language.hasSource path = true := hsource
      rw [if_pos hsource]
      exact List.mem_singleton_self _
  · split <;> simp

theorem lists_link (language : Language) (path : Path) (target : Path) :
    Lists language path (link target) [] := by
  constructor
  · intro names
    constructor
    · intro h
      cases h
    · rintro ⟨⟨c, hfile⟩, -⟩
      obtain ⟨-, hnode⟩ := at?_leaf rfl hfile
      cases hnode
  · exact .nil

theorem open_dir (hn : (es.map (·.1)).Nodup) (hself : refusal? path listable = none)
    (hes : ∀ e ∈ es, Open (path.join e.1) e.2) : Open path (dir listable es) := by
  intro names listable' es' h
  cases names with
  | nil =>
    cases h
    exact hself
  | cons name rest =>
    obtain ⟨t, ht, h⟩ := exists_entry hn h
    exact hes (name, t) ht rest listable' es' h

theorem lists_dir (hn : (es.map (·.1)).Nodup) (found : Bytes × Tree → List Location)
    (hes : ∀ e ∈ es, Lists language (path.join e.1) e.2 (found e)) :
    Lists language path (dir listable es)
      ((inOrder es).flatMap fun e => (found e).map (e.1 :: ·)) := by
  constructor
  · intro names
    simp only [List.mem_flatMap, mem_inOrder, List.mem_map]
    constructor
    · rintro ⟨e, he, rest, hrest, rfl⟩
      rw [at?_entry hn he]
      exact ((hes e he).mem rest).mp hrest
    · rintro ⟨⟨content, hfile⟩, hsource⟩
      cases names with
      | nil => cases hfile
      | cons name rest =>
        obtain ⟨t, ht, hfile⟩ := exists_entry hn hfile
        exact ⟨(name, t), ht, rest, ((hes _ ht).mem rest).mpr ⟨⟨content, hfile⟩, hsource⟩, rfl⟩
  · rw [List.pairwise_flatMap]
    constructor
    · intro e he
      have hsorted := (hes e ((mem_inOrder es e).mp he)).sorted
      apply List.pairwise_map.mpr
      apply hsorted.imp
      intro a b hab
      exact List.cons_lt_cons_iff.mpr (.inr ⟨rfl, hab⟩)
    · -- all that lies in an entry comes before what lies in the next
      apply (inOrder_sorted es hn).imp
      intro e e' hlt x hx y hy
      obtain ⟨a, -, rfl⟩ := List.mem_map.mp hx
      obtain ⟨b, -, rfl⟩ := List.mem_map.mp hy
      exact List.cons_lt_cons_iff.mpr (.inl hlt)

end

/-- A directory that can be listed: all its entries are walked, or one walk that fails is reported. -/
theorem walk_dir_cases (language : Language) (path : Path) (listable : Bool)
    (es : List (Bytes × Tree)) (hself : refusal? path listable = none) :
    (∃ results : Bytes × Tree → List Path,
      (∀ e ∈ es, walk language (path.join e.1) e.2 = .ok (results e)) ∧
      walk language path (dir listable es) = .ok ((inOrder es).flatMap results)) ∨
    (∃ e ∈ es, ∃ err, walk language (path.join e.1) e.2 = .error err ∧
      walk language path (dir listable es) = .error err) := by
  rw [walk_dir, hself]
  obtain ⟨lists, hmap, hok⟩ | ⟨front, e, back, err, hsplit, -, he, herr⟩ :=
    mapM_cases (fun e : Bytes × Tree => walk language (path.join e.1) e.2) (inOrder es)
  · have hex : ∀ e ∈ es, ∃ ps, walk language (path.join e.1) e.2 = .ok ps := by
      intro e he
      have h := isOk_of_map_eq _ _ _ hmap e ((mem_inOrder es e).mpr he)
      cases hw : walk language (path.join e.1) e.2 with
      | ok ps => exact ⟨ps, rfl⟩
      | error err =>
        rw [hw] at h
        cases h
    choose! results hresults using hex
    have hlists : lists = (inOrder es).map results := by
      apply @map_ok_injective (Path × IoError)
      rw [← hmap, List.map_map]
      apply List.map_congr_left
      intro e he
      exact hresults e ((mem_inOrder es e).mp he)
    refine .inl ⟨results, hresults, ?_⟩
    rw [hok, hlists, List.flatMap_def]
    rfl
  · refine .inr ⟨e, (mem_inOrder es e).mp (by simp [hsplit]), err, he, ?_⟩
    rw [herr]
    rfl

/-- A walk lists all source files in order, or reports a directory that cannot be listed. -/
theorem walk_cases (language : Language) {t : Tree} (ht : t.Proper) (path : Path) :
    (Open path t ∧ ∃ found, Lists language path t found ∧
      walk language path t = .ok (found.map path.below)) ∨
    (∃ names listable es cause, t.at? names = some (dir listable es) ∧
      refusal? (path.below names) listable = some cause ∧
      walk language path t = .error (path.below names, cause)) := by
  induction ht generalizing path with
  | @file content =>
    refine .inl ⟨open_leaf rfl, _, lists_file language path content, ?_⟩
    rw [walk]
    split <;> rfl
  | @link target =>
    refine .inl ⟨open_leaf rfl, _, lists_link language path target, ?_⟩
    rw [walk]
    rfl
  | @dir listable es hnames hn hbelow ih =>
    cases hself : refusal? path listable with
    | some cause => exact .inr ⟨[], listable, es, cause, rfl, hself, by rw [walk_dir, hself]; rfl⟩
    | none =>
      obtain ⟨results, hresults, hwalk⟩ | ⟨e, he, err, herr, hwalk⟩ :=
        walk_dir_cases language path listable es hself
      · have hall : ∀ e ∈ es, ∃ found, Open (path.join e.1) e.2 ∧
            Lists language (path.join e.1) e.2 found ∧
            results e = found.map (path.join e.1).below := by
          intro e he
          have hok := hresults e he
          obtain ⟨hopen, found, hlists, hw⟩ | ⟨names, listable', es', cause, -, -, hw⟩ :=
            ih e he (path.join e.1)
          · rw [hok] at hw
            exact ⟨found, hopen, hlists, Except.ok.inj hw⟩
          · rw [hok] at hw
            cases hw
        choose! found hopen hlists hfound using hall
        refine .inl ⟨open_dir hn hself hopen, _, lists_dir hn found hlists, ?_⟩
        rw [hwalk, List.map_flatMap]
        congr 1
        apply List.flatMap_congr
        intro e he
        rw [hfound e ((mem_inOrder es e).mp he), List.map_map]
        rfl
      · obtain ⟨-, found, -, hok⟩ | ⟨names, listable', es', cause, hat, hrefuse, hw⟩ :=
          ih e he (path.join e.1)
        · rw [hok] at herr
          cases herr
        · rw [hw] at herr
          obtain rfl := Except.error.inj herr
          refine .inr ⟨e.1 :: names, listable', es', cause, ?_, hrefuse, hwalk⟩
          rw [at?_entry hn he, hat]

theorem collect_of_error (t : Tree) (language : Language) (root : Path) (cause : IoError)
    (h : t.get true root = .error cause) :
    t.collect language root = .error ⟨root, root, cause⟩ := by
  obtain hget | ⟨target, hget⟩ := get_nofollow t root
  · simp only [collect, hget, h, bind, Except.bind]
  · simp only [collect, hget, h, bind, Except.bind]

/-- A root that is a directory, or a link to one, is walked. -/
theorem collect_of_dir (t : Tree) (language : Language) (root : Path) (listable : Bool)
    (es : List (Bytes × Tree)) (h : t.get true root = .ok (dir listable es)) :
    t.collect language root =
      (walk language root (dir listable es)).mapError fun e => ⟨root, e.1, e.2⟩ := by
  obtain hget | ⟨target, hget⟩ := get_nofollow t root
  · simp only [collect, hget, h, bind, Except.bind, pure, Except.pure]
    cases walk language root (dir listable es) <;> rfl
  · simp only [collect, hget, h, bind, Except.bind, pure, Except.pure]
    cases walk language root (dir listable es) <;> rfl

/-- A dot leads to the top. -/
theorem lookup_dot (t : Tree) (ht : t.isDir = true) (follow : Bool) :
    t.lookup follow (.ofString ".") = .ok [] := by
  have hcheck : checkPath (.ofString ".") = .ok () := by decide +kernel
  have hroute : (Path.ofString ".").route.all = [.here] := by decide +kernel
  have hdir : (t.at? []).any isDir = true := ht
  rw [lookup, hcheck, hroute, locate, resolve, if_pos hdir, resolve]
  rfl

theorem collect_dot (language : Language) (listable : Bool) (es : List (Bytes × Tree)) :
    let root := Path.ofString "."
    (dir listable es).collect language root =
      (walk language root (dir listable es)).mapError fun e => ⟨root, e.1, e.2⟩ :=
  collect_of_dir _ language _ listable es
    ((get_eq_ok_iff _ true _ _).mpr ⟨[], lookup_dot _ rfl true, rfl⟩)

theorem order_lt_of_lt (root : Path) (a b : Location) (ha : ∀ n ∈ a, IsEntryName n)
    (hb : ∀ n ∈ b, IsEntryName n) (hab : a < b) : (root.below a).order < (root.below b).order := by
  rw [Path.order_below root a ha, Path.order_below root b hb]
  exact List.append_left_lt hab

/-- Below one root, paths in the order of their components are different. -/
theorem nodup_of_order (paths : List Path) (h : paths.Pairwise fun p q => p.order < q.order) :
    paths.Nodup := by
  apply h.imp
  intro p q hpq heq
  rw [heq] at hpq
  exact List.lt_irrefl _ hpq

theorem Lists.order {language : Language} {root : Path} {node : Tree} {found : List Location}
    (hnode : node.Proper) (h : Lists language root node found) :
    (found.map root.below).Pairwise fun p q => p.order < q.order := by
  have hnames : ∀ names ∈ found, ∀ n ∈ names, IsEntryName n := by
    intro names hmem
    obtain ⟨⟨content, hat⟩, -⟩ := (h.mem names).mp hmem
    exact (hnode.at? hat).2
  apply List.pairwise_map.mpr
  apply List.Pairwise.imp_of_mem ?_ h.sorted
  intro a b ha hb hab
  exact order_lt_of_lt root a b (hnames a ha) (hnames b hb) hab

/-- A walk of a directory finds each source file below it once, in the order of the components of
the paths, and nothing that is reached through a link. If the root leads nowhere or a directory
cannot be listed, that is reported, and nothing is found. -/
theorem collect_lists_sources (t : Tree) (ht : t.Proper) (language : Language) (root : Path) :
    (∀ cause, t.get true root = .error cause →
      t.collect language root = .error ⟨root, root, cause⟩) ∧
    (∀ node, t.get true root = .ok node → node.isDir = true →
      (Open root node → ∃ found : List Location,
        t.collect language root = .ok (found.map root.below) ∧
        (∀ names, names ∈ found ↔ (∃ content, node.at? names = some (file content)) ∧
          language.hasSource (root.below names) = true) ∧
        (∀ names ∈ found, ∀ front back, names = front ++ back → back ≠ [] →
          (node.at? front).any isDir = true) ∧
        (found.map root.below).Nodup ∧
        (found.map root.below).Pairwise fun p q => p.order < q.order) ∧
      (¬Open root node → ∃ names listable es cause,
        node.at? names = some (dir listable es) ∧
        refusal? (root.below names) listable = some cause ∧
        t.collect language root = .error ⟨root, root.below names, cause⟩)) := by
  refine ⟨collect_of_error t language root, ?_⟩
  intro node hget hdir
  obtain ⟨loc, -, hloc⟩ := (get_eq_ok_iff t true root node).mp hget
  have hnode : node.Proper := (ht.at? hloc).1
  have hcollect : t.collect language root =
      (walk language root node).mapError fun e => ⟨root, e.1, e.2⟩ := by
    cases node with
    | dir listable es => exact collect_of_dir t language root listable es hget
    | file content => cases hdir
    | link target => cases hdir
  obtain ⟨hopen, found, hlists, hwalk⟩ | ⟨names, listable, es, cause, hat, hrefuse, hwalk⟩ :=
    walk_cases language hnode root
  · have horder := hlists.order hnode
    refine ⟨fun _ => ⟨found, ?_, hlists.mem, ?_, nodup_of_order _ horder, horder⟩,
      fun h => absurd hopen h⟩
    · rw [hcollect, hwalk]
      rfl
    · intro names hmem front back hsplit hback
      obtain ⟨⟨content, hfile⟩, -⟩ := (hlists.mem names).mp hmem
      exact isDir_front node (file content) front back hback (hsplit ▸ hfile)
  · have hclosed : ¬Open root node := by
      intro h
      rw [h names listable es hat] at hrefuse
      cases hrefuse
    refine ⟨fun h => absurd h hclosed, fun _ => ⟨names, listable, es, cause, hat, hrefuse, ?_⟩⟩
    rw [hcollect, hwalk]
    rfl

/-- A directory `b` comes before the file `b.py`, and a link and a directory are no sources. -/
theorem collect_lists_hidden_and_nested :
    let name := Bytes.ofString
    let t := dir true [(name "b.py", file []), (name "b", dir true [(name "x.py", file [])]),
      (name "a.py", link (.ofString "b.py")), (name ".h", dir true [(name "c.py", file [])]),
      (name "d.py", dir true [])]
    let root := Path.ofString "."
    t.Proper ∧ t.get true root = .ok t ∧ Open root t ∧ ∃ found : List Location,
      t.collect .python root = .ok (found.map root.below) ∧
      found.map root.below = ["./.h/c.py", "./b/x.py", "./b.py"].map Path.ofString ∧
      (∀ names, names ∈ found ↔ (∃ content, t.at? names = some (file content)) ∧
        Language.python.hasSource (root.below names) = true) ∧
      (found.map root.below).Pairwise fun p q => p.order < q.order := by
  intro name t root
  have ht : t.Proper := by
    refine .dir (by decide +kernel) (by decide +kernel) ?_
    simp only [List.forall_mem_cons]
    refine ⟨.file, .dir (by decide +kernel) (by decide) ?_, .link,
      .dir (by decide +kernel) (by decide) ?_, .dir (by simp) (by simp) (by simp), by simp⟩
    · simp [Proper.file]
    · simp [Proper.file]
  have hget : t.get true root = .ok t :=
    (get_eq_ok_iff t true root t).mpr ⟨[], lookup_dot t rfl true, rfl⟩
  have hh : walk .python (root.join (name ".h")) (dir true [(name "c.py", file [])]) =
      .ok [.ofString "./.h/c.py"] := by
    rw [walk_perm (.refl _) (by simp) (by decide +kernel)]
    decide +kernel
  have hb : walk .python (root.join (name "b")) (dir true [(name "x.py", file [])]) =
      .ok [.ofString "./b/x.py"] := by
    rw [walk_perm (.refl _) (by simp) (by decide +kernel)]
    decide +kernel
  have hcollect : t.collect .python root =
      .ok (["./.h/c.py", "./b/x.py", "./b.py"].map Path.ofString) := by
    -- the first four entries stand in reverse order
    have hwalk : walk .python root t = List.flatten <$> [_, _, _, _, _].mapM _ :=
      walk_perm ((List.reverse_perm [_, _, _, _]).symm.append_right [_]) (by decide +kernel)
        (by decide +kernel)
    simp only [List.mapM_cons, List.mapM_nil, hh, hb] at hwalk
    rw [collect_dot, hwalk]
    decide +kernel
  obtain ⟨hopen, hclosed⟩ := (collect_lists_sources t ht .python root).2 t hget rfl
  have h : Open root t := by
    by_contra hno
    obtain ⟨names, listable, es, cause, -, -, he⟩ := hclosed hno
    rw [hcollect] at he
    cases he
  obtain ⟨found, hfound, hmem, -, -, horder⟩ := hopen h
  rw [hcollect] at hfound
  refine ⟨ht, hget, h, found, ?_, (Except.ok.inj hfound).symm, hmem, horder⟩
  rw [hcollect, Except.ok.inj hfound]
end CallGraph.Tree

import CallGraph.Proofs.Files.Below
import Mathlib.Data.List.Sort

namespace CallGraph.Tree

section

variable {t : Tree} {links left : Nat} {loc parent : Location} {r : Route} {n : Bytes}

theorem target_file (hres : t.resolve true links loc r.steps.dropLast = .ok (parent, left))
    (hd : (t.at? parent).any isDir = true) (hlast : r.steps.getLast? = some (.name n))
    (hslash : ¬r.slash = true) (hn : ¬maxName < n.length) {content : Bytes}
    (hfile : t.at? (parent ++ [n]) = some (file content)) :
    t.target links loc r = .ok (parent ++ [n]) := by
  rw [target]
  split
  next e he => rw [hres] at he; cases he
  next parent' left' he =>
    rw [hres] at he
    cases he
    simp only [if_pos hd, hlast, if_neg hslash, if_neg hn, hfile]

theorem target_link
    (hres : t.resolve true links loc r.steps.dropLast = .ok (parent, left + 1))
    (hd : (t.at? parent).any isDir = true) (hlast : r.steps.getLast? = some (.name n))
    (hslash : ¬r.slash = true) (hn : ¬maxName < n.length) {p : Path}
    (hlink : t.at? (parent ++ [n]) = some (link p)) :
    t.target links loc r = t.target left parent p.route := by
  rw [target]
  split
  next e he => rw [hres] at he; cases he
  next parent' left' he =>
    rw [hres] at he
    cases he
    simp only [if_pos hd, hlast, if_neg hslash, if_neg hn, hlink]

end

/-- The place to write to stays the same when it has been written to. -/
theorem Written.target {t t' : Tree} {dest : Location} {content : Bytes}
    (hw : Written t dest content t') {links : Nat} {loc : Location} {r : Route}
    (h : t.target links loc r = .ok dest) : t'.target links loc r = .ok dest := by
  fun_induction Tree.target t links loc r with
  | case4 links loc r parent left hres hd n hlast hslash hn hnone =>
    obtain rfl := Except.ok.inj h
    exact target_file (hw.resolve hres) (hw.isDir hd) hlast hslash hn hw.at?_dest
  | case5 links loc r parent left hres hd n hlast hslash hn old hfile =>
    obtain rfl := Except.ok.inj h
    exact target_file (hw.resolve hres) (hw.isDir hd) hlast hslash hn hw.at?_dest
  | case8 links loc r parent hd n hlast hslash hn p hlink left hle hres hres' ih =>
    rw [target_link (hw.resolve hres) (hw.isDir hd) hlast hslash hn (hw.link hlink)]
    exact ih h
  | case1 | case2 | case3 | case6 | case7 | case9 | case10 => cases h

/-- The file at a location is among those that a walk from the root lists. -/
def Selects (t : Tree) (language : Language) (root : Path) (loc : Location) : Prop :=
  ∃ start names paths, t.lookup true root = .ok start ∧ loc = start ++ names ∧
    t.collect language root = .ok paths ∧ root.below names ∈ paths

theorem exists_file_iff {t node : Tree} {start : Location} (h : t.at? start = some node)
    (names : Location) : (∃ content, node.at? names = some (file content)) ↔
      ∃ content, t.label? (start ++ names) = some (.file content) := by
  simp only [← label?_below h, label?_eq_file]

namespace Written

variable {t t' : Tree} {dest : Location} {content : Bytes} {language : Language} {root : Path}
  {paths : List Path}

theorem lookup_eq (hw : Written t dest content t') {follow : Bool} {p : Path} {loc : Location}
    (h : t.lookup follow p = .ok loc) : t'.lookup follow p = .ok loc := by
  rw [lookup_eq_ok_iff] at h ⊢
  obtain ⟨hcheck, left, hres⟩ := h
  exact ⟨hcheck, left, hw.resolve hres⟩

/-- What was there is still there, and a directory only if it was one. -/
theorem isDir_eq (hw : Written t dest content t') {loc : Location} {node : Tree}
    (h : t.at? loc = some node) : ∃ node', t'.at? loc = some node' ∧ node'.isDir = node.isDir := by
  obtain ⟨node', hnode', he | ⟨old, rfl, rfl⟩⟩ := hw.at?_cases h
  · refine ⟨node', hnode', ?_⟩
    rw [Bool.eq_iff_iff, isDir_iff_label, isDir_iff_label, he]
  · exact ⟨_, hnode', rfl⟩

theorem walk_open (hw : Written t dest content t') {start : Location} {node node' : Tree}
    (hnode : t.at? start = some node) (hnode' : t'.at? start = some node') (h : Open root node) :
    Open root node' := by
  intro names listable es hdir
  have hlabel : t'.label? (start ++ names) = some (.dir listable) := by
    rw [← label?_below hnode', label?, hdir]
    rfl
  have hne : start ++ names ≠ dest := by
    intro he
    rw [he, hw.after] at hlabel
    cases hlabel
  rw [hw.frame _ hne, ← label?_below hnode] at hlabel
  obtain ⟨old, hold, he⟩ := Option.map_eq_some_iff.mp hlabel
  cases old with
  | dir listable' es' =>
    cases he
    exact h names listable es' hold
  | file content => cases he
  | link target => cases he

/-- A walk that does not come upon the file that was written lists what it listed before. -/
theorem walk (hw : Written t dest content t') {start : Location} {node node' : Tree}
    (hnode : t.at? start = some node) (hnode' : t'.at? start = some node') (hp : node.Proper)
    (hp' : node'.Proper) (hok : Tree.walk language root node = .ok paths)
    (hout : ∀ names paths', start ++ names = dest →
      Tree.walk language root node' = .ok paths' → root.below names ∉ paths') :
    Tree.walk language root node' = .ok paths := by
  obtain ⟨hopen, found, hlists, hwalk⟩ | ⟨_, _, _, _, -, -, hwalk⟩ := walk_cases language hp root
  · obtain ⟨-, found', hlists', hwalk'⟩ | ⟨names, listable, es, cause, hdir, hrefuse, -⟩ :=
      walk_cases language hp' root
    · have hmem : ∀ names, names ∈ found' ↔ names ∈ found := by
        intro names
        rw [hlists'.mem, hlists.mem, exists_file_iff hnode', exists_file_iff hnode]
        by_cases he : start ++ names = dest
        · -- the file that was written is no source
          have hno : ¬language.hasSource (root.below names) = true := by
            intro hsource
            refine hout names _ he hwalk' (List.mem_map_of_mem ?_)
            rw [hlists'.mem, exists_file_iff hnode', he]
            exact ⟨⟨content, hw.after⟩, hsource⟩
          simp [hno]
        · rw [hw.frame _ he]
      rw [hwalk', hlists'.sorted.eq_of_mem_iff hlists.sorted hmem, ← hwalk, hok]
    · rw [hw.walk_open hnode hnode' hopen names listable es hdir] at hrefuse
      cases hrefuse
  · rw [hwalk] at hok
    cases hok

/-- A file that is not selected may be written: the walk lists what it listed before. -/
theorem collect (hw : Written t dest content t') (ht : t.Proper) (ht' : t'.Proper)
    (hok : t.collect language root = .ok paths) (hout : ¬t'.Selects language root dest) :
    t'.collect language root = .ok paths := by
  obtain ⟨start, node, hstart, hnode, hcase⟩ := collect_cases hok
  have hstart' := hw.lookup_eq hstart
  obtain ⟨node', hnode', hdir'⟩ := hw.isDir_eq hnode
  obtain ⟨hroot, hwalk⟩ | ⟨hdir, rfl, loc, target, hloc, hlink⟩ := hcase
  · have hroot' : node'.isDir = true ∨ t'.lookup false root = .ok start := by
      rw [hdir']
      exact hroot.imp_right hw.lookup_eq
    have hcollect : t'.collect language root = _ := collect_of_walked hstart' hnode' hroot'
    rw [hcollect, hw.walk hnode hnode' (ht.at? hnode).1 (ht'.at? hnode').1 hwalk ?_]
    · rfl
    · intro names paths' he hwalk' hmem
      rw [hwalk'] at hcollect
      exact hout ⟨start, names, paths', hstart', he.symm, hcollect, hmem⟩
  · exact collect_of_link hstart' hnode' (hw.lookup_eq hloc) (hw.link hlink) (hdir'.trans hdir)

end Written

end CallGraph.Tree

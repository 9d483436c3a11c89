import CallGraph.Proofs.Files.Walk

namespace CallGraph

theorem IsEntryName.stepOfPiece? {n : Bytes} (hn : IsEntryName n) :
    Path.stepOfPiece? n = some (.name n) := by
  rw [Path.stepOfPiece?, if_neg hn.1, if_neg hn.2.1, hn.ofPiece?]

namespace Path

end Path

namespace Tree

theorem lookup_eq_ok_iff (t : Tree) (follow : Bool) (p : Path) (loc : Location) :
    t.lookup follow p = .ok loc ↔
      checkPath p = .ok () ∧ ∃ left, t.resolve follow maxLinks [] p.route.all = .ok (loc, left) := by
  rw [lookup, locate]
  cases checkPath p with
  | error e => simp [bind, Except.bind]
  | ok u =>
    cases t.resolve follow maxLinks [] p.route.all with
    | error e => simp [bind, Except.bind, Functor.map, Except.map]
    | ok r => simp [bind, Except.bind, Functor.map, Except.map, Prod.ext_iff]

theorem label?_append (t : Tree) (front back : Location) :
    t.label? (front ++ back) = (t.at? front).bind (label? · back) := by
  rw [label?, at?_append, Option.map_bind]
  rfl

theorem label?_below {t node : Tree} {start : Location} (h : t.at? start = some node)
    (names : Location) : node.label? names = t.label? (start ++ names) := by
  rw [label?_append, h, Option.bind_some]

section

variable {t : Tree} {language : Language} {root : Path} {start : Location} {node : Tree}

/-- A root that is a directory, or no link, is walked. -/
theorem collect_of_walked (hstart : t.lookup true root = .ok start) (hnode : t.at? start = some node)
    (h : node.isDir = true ∨ t.lookup false root = .ok start) :
    t.collect language root = (walk language root node).mapError fun e => ⟨root, e.1, e.2⟩ := by
  have hget : t.get true root = .ok node :=
    (get_eq_ok_iff t true root node).mpr ⟨start, hstart, hnode⟩
  cases node with
  | dir listable es => exact collect_of_dir t language root listable es hget
  | file content =>
    have hfalse : t.get false root = .ok (file content) :=
      (get_eq_ok_iff t false root _).mpr ⟨start, h.resolve_left Bool.false_ne_true, hnode⟩
    simp only [collect, hfalse, bind, Except.bind, pure, Except.pure]
    rfl
  | link target =>
    have hfalse : t.get false root = .ok (link target) :=
      (get_eq_ok_iff t false root _).mpr ⟨start, h.resolve_left Bool.false_ne_true, hnode⟩
    simp only [collect, hfalse, hget, bind, Except.bind, pure, Except.pure]
    rfl

/-- A root that is a link, and not to a directory, has nothing. -/
theorem collect_of_link (hstart : t.lookup true root = .ok start) (hnode : t.at? start = some node)
    {loc : Location} {target : Path} (hloc : t.lookup false root = .ok loc)
    (hlink : t.at? loc = some (link target)) (hdir : node.isDir = false) :
    t.collect language root = .ok [] := by
  have hget : t.get true root = .ok node :=
    (get_eq_ok_iff t true root node).mpr ⟨start, hstart, hnode⟩
  have hfalse : t.get false root = .ok (link target) :=
    (get_eq_ok_iff t false root _).mpr ⟨loc, hloc, hlink⟩
  cases node with
  | dir listable es => cases hdir
  | file content =>
    simp only [collect, hfalse, hget, bind, Except.bind, pure, Except.pure]
    rfl
  | link target' =>
    simp only [collect, hfalse, hget, bind, Except.bind, pure, Except.pure]
    rfl

/-- A walk that lists paths goes over what the root leads to, or lists none. -/
theorem collect_cases {paths : List Path} (h : t.collect language root = .ok paths) :
    ∃ start node, t.lookup true root = .ok start ∧ t.at? start = some node ∧
      (((node.isDir = true ∨ t.lookup false root = .ok start) ∧
          walk language root node = .ok paths) ∨
        (node.isDir = false ∧ paths = [] ∧
          ∃ loc target, t.lookup false root = .ok loc ∧ t.at? loc = some (link target))) := by
  cases hget : t.get true root with
  | error cause =>
    rw [collect_of_error t language root cause hget] at h
    cases h
  | ok node =>
    obtain ⟨start, hstart, hnode⟩ := (get_eq_ok_iff t true root node).mp hget
    refine ⟨start, node, hstart, hnode, ?_⟩
    by_cases hroot : node.isDir = true ∨ t.lookup false root = .ok start
    · rw [collect_of_walked hstart hnode hroot] at h
      cases hw : walk language root node with
      | error e =>
        rw [hw] at h
        cases h
      | ok ps =>
        rw [hw] at h
        exact .inl ⟨hroot, congrArg _ (Except.ok.inj h)⟩
    · obtain ⟨hdir, hno⟩ := not_or.mp hroot
      obtain hl | ⟨loc, target, hloc, hlink⟩ := lookup_nofollow t root
      · exact absurd (hl.trans hstart) hno
      · have hdir : node.isDir = false := Bool.eq_false_iff.mpr hdir
        rw [collect_of_link hstart hnode hloc hlink hdir] at h
        exact .inr ⟨hdir, (Except.ok.inj h).symm, loc, target, hloc, hlink⟩

end

end Tree
end CallGraph

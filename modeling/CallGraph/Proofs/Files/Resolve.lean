import CallGraph.Files.Resolve
import CallGraph.Proofs.Files.Tree
import Mathlib.Data.List.Basic

namespace CallGraph

theorem Route.all_eq (r : Route) (n : Bytes) (hslash : ¬r.slash = true)
    (hlast : r.steps.getLast? = some (.name n)) : r.all = r.steps.dropLast ++ [.name n] := by
  rw [Route.all, if_neg hslash, List.dropLast_append_getLast? (Component.name n) hlast]

namespace Tree

section

variable {t : Tree} {follow : Bool} {links : Nat} {loc : Location} {n : Bytes}
  {rest : List Component}

theorem resolve_entry {node : Tree} (hd : (t.at? loc).any isDir = true)
    (hn : ¬maxName < n.length) (hnode : t.at? (loc ++ [n]) = some node)
    (hl : ∀ target, node ≠ link target) : t.resolve follow links loc (.name n :: rest) =
      t.resolve follow links (loc ++ [n]) rest := by
  rw [resolve, if_pos hd]
  simp only [if_neg hn, hnode]

theorem resolve_link {target : Path} (hd : (t.at? loc).any isDir = true)
    (hn : ¬maxName < n.length) (hnode : t.at? (loc ++ [n]) = some (link target))
    (hend : ¬(rest = [] ∧ follow = false)) :
    t.resolve follow (links + 1) loc (.name n :: rest) =
      t.resolve follow links loc (target.route.all ++ rest) := by
  rw [resolve, if_pos hd]
  simp only [if_neg hn, hnode, if_neg hend]

theorem resolve_link_end {target : Path} (hd : (t.at? loc).any isDir = true)
    (hn : ¬maxName < n.length) (hnode : t.at? (loc ++ [n]) = some (link target)) :
    t.resolve false links loc [.name n] = .ok (loc ++ [n], links) := by
  rw [resolve, if_pos hd]
  simp only [if_neg hn, hnode, and_self, if_true]

end

/-- A way in two parts: the second begins where the first ends. -/
theorem resolve_append (t : Tree) (links : Nat) (loc : Location) (xs ys : List Component) :
    t.resolve true links loc (xs ++ ys) =
      (t.resolve true links loc xs).bind fun r => t.resolve true r.2 r.1 ys := by
  fun_induction Tree.resolve t true links loc xs with
  | case1 links loc => rfl
  | case2 links loc rest hd ih =>
    rw [List.cons_append, resolve, if_pos hd]
    exact ih
  | case3 links loc rest hd ih =>
    rw [List.cons_append, resolve, if_pos hd]
    exact ih
  | case4 links loc rest hd ih =>
    rw [List.cons_append, resolve, if_pos hd]
    exact ih
  | case5 links loc rest hd n hn =>
    rw [List.cons_append, resolve, if_pos hd]
    simp only [if_pos hn]
    rfl
  | case6 links loc rest hd n hn hnone =>
    rw [List.cons_append, resolve, if_pos hd]
    simp only [if_neg hn, hnone]
    rfl
  | case7 links loc rest hd n hn target hnode hend => exact absurd hend.2 (by simp)
  | case8 loc rest hd n hn target hnode hend =>
    have hend' : ¬(rest ++ ys = [] ∧ true = false) := by simp
    rw [List.cons_append, resolve, if_pos hd]
    simp only [if_neg hn, hnode, if_neg hend']
    rfl
  | case9 loc rest hd n hn target hnode hend links ih =>
    rw [List.cons_append, resolve_link hd hn hnode (by simp), ← List.append_assoc]
    exact ih
  | case10 links loc rest hd n hn node hl hnode ih =>
    rw [List.cons_append, resolve_entry hd hn hnode hl]
    exact ih
  | case11 links loc step rest hd =>
    rw [List.cons_append, resolve.eq_def]
    simp only [if_neg hd]
    rfl

/-- Not to follow a link at the end makes a difference only where the way ends in one. -/
theorem resolve_nofollow (t : Tree) (links : Nat) (loc : Location) (steps : List Component) :
    t.resolve false links loc steps = t.resolve true links loc steps ∨
      ∃ r target, t.resolve false links loc steps = .ok r ∧ t.at? r.1 = some (link target) := by
  fun_induction Tree.resolve t false links loc steps with
  | case1 links loc =>
    rw [resolve]
    exact .inl rfl
  | case2 links loc rest hd ih =>
    rw [resolve, if_pos hd]
    exact ih
  | case3 links loc rest hd ih =>
    rw [resolve, if_pos hd]
    exact ih
  | case4 links loc rest hd ih =>
    rw [resolve, if_pos hd]
    exact ih
  | case5 links loc rest hd n hn =>
    left
    rw [resolve, if_pos hd]
    simp only [if_pos hn]
  | case6 links loc rest hd n hn hnone =>
    left
    rw [resolve, if_pos hd]
    simp only [if_neg hn, hnone]
  | case7 links loc rest hd n hn target hnode hend =>
    exact .inr ⟨_, target, rfl, hnode⟩
  | case8 loc rest hd n hn target hnode hend =>
    have hend' : ¬(rest = [] ∧ true = false) := by simp
    left
    rw [resolve, if_pos hd]
    simp only [if_neg hn, hnode, if_neg hend']
  | case9 loc rest hd n hn target hnode hend links ih =>
    rw [resolve_link hd hn hnode (by simp)]
    exact ih
  | case10 links loc rest hd n hn node hl hnode ih =>
    rw [resolve_entry hd hn hnode hl]
    exact ih
  | case11 links loc step rest hd =>
    left
    rw [resolve.eq_def]
    simp only [if_neg hd]

theorem lookup_nofollow (t : Tree) (p : Path) :
    t.lookup false p = t.lookup true p ∨
      ∃ loc target, t.lookup false p = .ok loc ∧ t.at? loc = some (link target) := by
  rw [lookup, lookup]
  cases checkPath p with
  | error e => exact .inl rfl
  | ok u =>
    simp only [locate, bind, Except.bind]
    obtain h | ⟨r, target, hr, hlink⟩ := resolve_nofollow t maxLinks [] p.route.all
    · rw [h]
      exact .inl rfl
    · rw [hr]
      exact .inr ⟨r.1, target, rfl, hlink⟩

theorem get_eq_ok_iff (t : Tree) (follow : Bool) (p : Path) (node : Tree) :
    t.get follow p = .ok node ↔ ∃ loc, t.lookup follow p = .ok loc ∧ t.at? loc = some node := by
  rw [get]
  cases t.lookup follow p with
  | error e => simp [bind, Except.bind]
  | ok loc =>
    simp only [bind, Except.bind, Except.ok.injEq, exists_eq_left']
    cases t.at? loc with
    | none => simp [throw, throwThe, MonadExceptOf.throw]
    | some node' => simp [pure, Except.pure]

theorem get_nofollow (t : Tree) (p : Path) :
    t.get false p = t.get true p ∨ ∃ target, t.get false p = .ok (link target) := by
  obtain h | ⟨loc, target, hloc, hlink⟩ := lookup_nofollow t p
  · rw [get, get, h]
    exact .inl rfl
  · exact .inr ⟨target, (get_eq_ok_iff t false p _).mpr ⟨loc, hloc, hlink⟩⟩

/-- `t'` is `t` with a file of that content at `dest`, where there was a file or nothing before. -/
structure Written (t : Tree) (dest : Location) (content : Bytes) (t' : Tree) : Prop where
  before : t.label? dest = none ∨ ∃ old, t.label? dest = some (.file old)
  after : t'.label? dest = some (.file content)
  frame : ∀ loc, loc ≠ dest → t'.label? loc = t.label? loc

namespace Written

variable {t t' : Tree} {dest : Location} {content : Bytes}

/-- Directories and links stay as they are. -/
theorem label?_eq (h : Written t dest content t') {loc : Location} {l : Label}
    (hl : t.label? loc = some l) (hfile : ∀ old, l ≠ .file old) : t'.label? loc = some l := by
  rw [h.frame loc ?_, hl]
  intro he
  subst he
  obtain hb | ⟨old, hb⟩ := h.before
  · rw [hb] at hl
    cases hl
  · rw [hb] at hl
    exact hfile old (Option.some.inj hl).symm

theorem isDir (h : Written t dest content t') {loc : Location}
    (hd : (t.at? loc).any Tree.isDir = true) : (t'.at? loc).any Tree.isDir = true := by
  rw [isDir_iff_label?] at hd ⊢
  obtain ⟨listable, hl⟩ := hd
  exact ⟨listable, h.label?_eq hl (by simp)⟩

theorem link (h : Written t dest content t') {loc : Location} {target : Path}
    (hl : t.at? loc = some (.link target)) : t'.at? loc = some (.link target) := by
  rw [← label?_eq_link] at hl ⊢
  exact h.label?_eq hl (by simp)

theorem at?_dest (h : Written t dest content t') : t'.at? dest = some (file content) :=
  (label?_eq_file t' dest content).mp h.after

/-- What was there is still there: the same, or a file for a file. -/
theorem at?_cases (h : Written t dest content t') {loc : Location} {node : Tree}
    (hnode : t.at? loc = some node) : ∃ node', t'.at? loc = some node' ∧
      (node'.label = node.label ∨ ∃ old, node = file old ∧ node' = file content) := by
  by_cases hd : loc = dest
  · subst hd
    refine ⟨_, h.at?_dest, .inr ?_⟩
    obtain hb | ⟨old, hb⟩ := h.before
    · rw [label?, hnode] at hb
      cases hb
    · rw [label?_eq_file, hnode] at hb
      exact ⟨old, Option.some.inj hb, rfl⟩
  · have hlabel : (t'.at? loc).map label = some node.label := by
      have hf := h.frame loc hd
      rwa [label?, label?, hnode] at hf
    obtain ⟨node', hnode', he⟩ := Option.map_eq_some_iff.mp hlabel
    exact ⟨node', hnode', .inl he⟩

/-- What is no link is still there and no link. -/
theorem entry (h : Written t dest content t') {loc : Location} {node : Tree}
    (hnode : t.at? loc = some node) (hl : ∀ target, node ≠ .link target) :
    ∃ node', t'.at? loc = some node' ∧ ∀ target, node' ≠ .link target := by
  obtain ⟨node', hnode', he | ⟨old, -, rfl⟩⟩ := h.at?_cases hnode
  · refine ⟨node', hnode', ?_⟩
    rintro target rfl
    cases node with
    | link target => exact hl target rfl
    | file content => cases he
    | dir listable entries => cases he
  · exact ⟨_, hnode', nofun⟩

/-- A way that leads somewhere leads there still. -/
theorem resolve (h : Written t dest content t') {follow : Bool} {links : Nat} {loc : Location}
    {steps : List Component} {r : Location × Nat}
    (hr : t.resolve follow links loc steps = .ok r) :
    t'.resolve follow links loc steps = .ok r := by
  -- each step that succeeds looks at a directory, a link or something that is no link
  fun_induction Tree.resolve t follow links loc steps with
  | case1 links loc =>
    rw [Tree.resolve]
    exact hr
  | case2 links loc rest hd ih =>
    rw [Tree.resolve, if_pos (h.isDir hd)]
    exact ih hr
  | case3 links loc rest hd ih =>
    rw [Tree.resolve, if_pos (h.isDir hd)]
    exact ih hr
  | case4 links loc rest hd ih =>
    rw [Tree.resolve, if_pos (h.isDir hd)]
    exact ih hr
  | case5 | case6 | case8 | case11 => cases hr
  | case7 links loc rest hd n hn target hnode hend =>
    obtain ⟨rfl, rfl⟩ := hend
    rw [resolve_link_end (h.isDir hd) hn (h.link hnode)]
    exact hr
  | case9 loc rest hd n hn target hnode hend links ih =>
    rw [resolve_link (h.isDir hd) hn (h.link hnode) hend]
    exact ih hr
  | case10 links loc rest hd n hn node hl hnode ih =>
    obtain ⟨node', hnode', hl'⟩ := h.entry hnode hl
    rw [resolve_entry (h.isDir hd) hn hnode' hl']
    exact ih hr

end Written

/-- Up to its last step, a way leads where it led before. -/
theorem Written.resolve_last {t t' : Tree} {dest : Location} {content : Bytes}
    (hw : Written t dest content t') {links left : Nat} {loc parent : Location} {r : Route}
    {n : Bytes} (hres : t.resolve true links loc r.steps.dropLast = .ok (parent, left))
    (hslash : ¬r.slash = true) (hlast : r.steps.getLast? = some (.name n)) :
    t'.resolve true links loc r.all = t'.resolve true left parent [.name n] := by
  rw [r.all_eq n hslash hlast, resolve_append, hw.resolve hres]
  rfl

theorem Written.resolve_dest {t t' : Tree} {content : Bytes} {links left : Nat}
    {loc parent : Location} {r : Route} {n : Bytes} (hw : Written t (parent ++ [n]) content t')
    (hres : t.resolve true links loc r.steps.dropLast = .ok (parent, left))
    (hd : (t.at? parent).any Tree.isDir = true) (hlast : r.steps.getLast? = some (.name n))
    (hslash : ¬r.slash = true) (hn : ¬maxName < n.length) :
    t'.resolve true links loc r.all = .ok (parent ++ [n], left) := by
  rw [hw.resolve_last hres hslash hlast, resolve_entry (hw.isDir hd) hn hw.at?_dest nofun,
    Tree.resolve]

/-- After writing, the way to the place to write to leads there. -/
theorem Written.resolve_target {t t' : Tree} {dest : Location} {content : Bytes}
    (hw : Written t dest content t') {links : Nat} {loc : Location} {r : Route}
    (h : t.target links loc r = .ok dest) :
    ∃ left, t'.resolve true links loc r.all = .ok (dest, left) := by
  fun_induction Tree.target t links loc r with
  | case4 links loc r parent left hres hd n hlast hslash hn hnone =>
    obtain rfl := Except.ok.inj h
    exact ⟨left, hw.resolve_dest hres hd hlast hslash hn⟩
  | case5 links loc r parent left hres hd n hlast hslash hn old hfile =>
    obtain rfl := Except.ok.inj h
    exact ⟨left, hw.resolve_dest hres hd hlast hslash hn⟩
  | case8 links loc r parent hd n hlast hslash hn p hlink left hle hres hres' ih =>
    -- the link is still there, since what stood at the destination was none
    obtain ⟨left', hl⟩ := ih h
    refine ⟨left', ?_⟩
    rw [hw.resolve_last hres hslash hlast,
      resolve_link (hw.isDir hd) hn (hw.link hlink) (by simp), List.append_nil]
    exact hl
  | case1 | case2 | case3 | case6 | case7 | case9 | case10 => cases h

theorem create_eq_ok_iff (t : Tree) (p : Path) (t' : Tree) (loc : Location) :
    t.create p = .ok (t', loc) ↔ checkPath p = .ok () ∧ t.target maxLinks [] p.route = .ok loc ∧
      t' = t.set loc (file []) := by
  rw [create]
  cases checkPath p with
  | error e => simp [bind, Except.bind]
  | ok u =>
    cases t.target maxLinks [] p.route with
    | error e => simp [bind, Except.bind]
    | ok dest =>
      simp only [bind, Except.bind, pure, Except.pure, Except.ok.injEq, Prod.mk.injEq, true_and]
      constructor
      · rintro ⟨rfl, rfl⟩
        exact ⟨rfl, rfl⟩
      · rintro ⟨rfl, rfl⟩
        exact ⟨rfl, rfl⟩

theorem Written.lookup {t t' t'' : Tree} {p : Path} {loc : Location} {content : Bytes}
    (hw : Written t loc content t'') (h : t.create p = .ok (t', loc)) :
    t''.lookup true p = .ok loc := by
  obtain ⟨hcheck, htarget, -⟩ := (create_eq_ok_iff t p t' loc).mp h
  obtain ⟨left, hl⟩ := hw.resolve_target htarget
  rw [Tree.lookup, hcheck]
  change t''.locate true p.route.all = _
  rw [locate, hl]
  rfl

theorem Written.read {t t' t'' : Tree} {p : Path} {loc : Location} {content : Bytes}
    (hw : Written t loc content t'') (h : t.create p = .ok (t', loc)) :
    t''.read p = .ok content := by
  have hget : t''.get true p = .ok (file content) :=
    (get_eq_ok_iff t'' true p _).mpr ⟨loc, hw.lookup h, hw.at?_dest⟩
  rw [Tree.read, hget]
  rfl

end Tree
end CallGraph

import CallGraph.Scan.Build
import Mathlib.Data.List.Nodup
import Mathlib.Data.List.Perm.Basic
import Mathlib.Tactic.Common

namespace CallGraph

/-- A traversal yields all results, or else the first failure. -/
theorem mapM_cases {ε α β : Type} (f : α → Except ε β) (xs : List α) :
    (∃ ys, xs.map f = ys.map .ok ∧ xs.mapM f = .ok ys) ∨
    (∃ front x back e, xs = front ++ x :: back ∧ (∀ y ∈ front, (f y).isOk = true) ∧
      f x = .error e ∧ xs.mapM f = .error e) := by
  induction xs with
  | nil => exact .inl ⟨[], rfl, rfl⟩
  | cons x xs ih =>
    rw [List.mapM_cons]
    cases hx : f x with
    | error e => exact .inr ⟨[], x, xs, e, rfl, by simp, hx, rfl⟩
    | ok y =>
      obtain ⟨ys, hm, ho⟩ | ⟨front, z, back, e, he, hf, hz, ho⟩ := ih
      · refine .inl ⟨y :: ys, ?_, ?_⟩
        · rw [List.map_cons, List.map_cons, hx, hm]
        · rw [ho]
          rfl
      · refine .inr ⟨x :: front, z, back, e, ?_, ?_, hz, ?_⟩
        · rw [he, List.cons_append]
        · intro w hw
          obtain rfl | hw := List.mem_cons.mp hw
          · rw [hx]
            rfl
          · exact hf w hw
        · rw [ho]
          rfl

theorem isOk_of_map_eq {ε α β : Type} (f : α → Except ε β) (xs : List α) (ys : List β)
    (h : xs.map f = ys.map .ok) (x : α) (hx : x ∈ xs) : (f x).isOk = true := by
  have hm : f x ∈ ys.map Except.ok := by
    rw [← h]
    exact List.mem_map_of_mem hx
  obtain ⟨y, -, hy⟩ := List.mem_map.mp hm
  rw [← hy]
  rfl

theorem ne_error_of_map_eq {ε α β : Type} (f : α → Except ε β) (xs : List α) (ys : List β)
    (h : xs.map f = ys.map .ok) (x : α) (hx : x ∈ xs) (e : ε) : f x ≠ .error e := by
  intro he
  have hok := isOk_of_map_eq f xs ys h x hx
  rw [he] at hok
  cases hok

theorem map_ok_injective {ε β : Type} (ys zs : List β)
    (h : ys.map (Except.ok : β → Except ε β) = zs.map .ok) : ys = zs := by
  refine List.map_injective_iff.mpr ?_ h
  intro a b hab
  exact Except.ok.inj hab

namespace Completed

/-- Files with their places. -/
def placed (files : List ScannedFile) : List (Nat × ScannedFile) :=
  files.zipIdx.map fun f => (f.2, f.1)

theorem placed_files (files : List ScannedFile) : (placed files).map (·.2) = files := by
  simp [placed, Function.comp_def]

theorem placed_sorted (files : List ScannedFile) :
    (placed files).Pairwise fun a b => a.1 < b.1 := by
  have hr : ((placed files).map (·.1)).Pairwise (· < ·) := by
    have hp : (placed files).map (·.1) = List.range' 0 files.length := by
      simp [placed, Function.comp_def]
    rw [hp]
    exact List.pairwise_lt_range'
  exact List.pairwise_map.mp hr

theorem placed_unique (files : List ScannedFile) (a b : Nat × ScannedFile)
    (ha : a ∈ placed files) (hb : b ∈ placed files) (hab : a.1 = b.1) : a = b := by
  have hn : ((placed files).map (·.1)).Nodup :=
    (List.pairwise_map.mpr (placed_sorted files)).imp Nat.ne_of_lt
  exact List.inj_on_of_nodup_map hn ha hb hab

/-- Whatever order files with places come in, sorting by place puts them back in theirs. -/
theorem sort_placed (files : List ScannedFile) (ps : List (Nat × ScannedFile))
    (hp : ps.Perm (placed files)) :
    (ps.mergeSort fun a b => decide (a.1 ≤ b.1)) = placed files := by
  have hs : (ps.mergeSort fun a b => decide (a.1 ≤ b.1)).Perm (placed files) :=
    (List.mergeSort_perm ps _).trans hp
  have hl : (ps.mergeSort fun a b => decide (a.1 ≤ b.1)).Pairwise
      fun a b => decide (a.1 ≤ b.1) = true := by
    apply List.pairwise_mergeSort
    · intro a b c hab hbc
      simp only [decide_eq_true_eq] at *
      omega
    · intro a b
      simp only [Bool.or_eq_true, decide_eq_true_eq]
      omega
  have hr : (placed files).Pairwise fun a b => decide (a.1 ≤ b.1) = true := by
    refine (placed_sorted files).imp ?_
    intro a b hab
    simp only [decide_eq_true_eq]
    omega
  refine hs.eq_of_pairwise ?_ hl hr
  intro a b ha hb hab hba
  simp only [decide_eq_true_eq] at hab hba
  exact placed_unique files a b (hs.mem_iff.mp ha) hb (by omega)

/-- The result of a scan with the place of its path. -/
def located (s : Completed) : Except ReadError (Nat × ScannedFile) :=
  (fun f => (s.place, f)) <$> s.result

theorem located_isOk (s : Completed) : s.located.isOk = s.result.isOk := by
  unfold located
  cases s.result <;> rfl

theorem map_located_all (source : Source) (paths : List Path) (files : List ScannedFile)
    (hf : paths.map source = files.map .ok) :
    (all source paths).map located = (placed files).map .ok := by
  have hz : paths.zipIdx.map (fun p => (source p.1, p.2)) =
      files.zipIdx.map (fun f => (Except.ok f.1, f.2)) := by
    have hi := congrArg List.zipIdx hf
    rw [List.zipIdx_map, List.zipIdx_map] at hi
    exact hi
  have hm := congrArg (List.map fun q : Except ReadError ScannedFile × Nat =>
    (fun f => (q.2, f)) <$> q.1) hz
  rw [List.map_map, List.map_map] at hm
  rw [all, placed, List.map_map, List.map_map]
  exact hm

theorem gather_eq (scans : List Completed) : gather scans =
    (fun ps => (ps.mergeSort fun a b => decide (a.1 ≤ b.1)).map (·.2)) <$> scans.mapM located := by
  rw [gather]
  change scans.mapM located >>= _ = _
  cases scans.mapM located <;> rfl

/-- The files come out in the order of the paths, in whatever order the scans ended. -/
theorem gather_of_perm (source : Source) (paths : List Path) (files : List ScannedFile)
    (scans : List Completed) (hp : scans.Perm (all source paths))
    (hf : paths.map source = files.map .ok) : gather scans = .ok files := by
  have hall := map_located_all source paths files hf
  obtain ⟨ps, hm, ho⟩ | ⟨front, s, back, e, he, -, hs, -⟩ := mapM_cases located scans
  · have hperm : (ps.map Except.ok).Perm ((placed files).map
        (Except.ok : _ → Except ReadError (Nat × ScannedFile))) := by
      rw [← hm, ← hall]
      exact hp.map located
    have hps : ps.Perm (placed files) := by
      have hx := hperm.filterMap Except.toOption
      simpa [List.filterMap_map, Function.comp_def, Except.toOption] using hx
    rw [gather_eq, ho]
    change Except.ok ((ps.mergeSort _).map _) = _
    rw [sort_placed files ps hps, placed_files]
  · have hmem : s ∈ all source paths := hp.mem_iff.mp (by simp [he])
    exact absurd hs (ne_error_of_map_eq located _ _ hall s hmem e)

theorem isOk_of_gather (scans : List Completed) (files : List ScannedFile)
    (hg : gather scans = .ok files) (s : Completed) (hs : s ∈ scans) : s.result.isOk = true := by
  rw [gather_eq] at hg
  obtain ⟨ps, hm, -⟩ | ⟨front, x, back, e, -, -, -, ho⟩ := mapM_cases located scans
  · rw [← located_isOk]
    exact isOk_of_map_eq located scans ps hm s hs
  · rw [ho] at hg
    cases hg

theorem exists_path_of_mem (source : Source) (paths : List Path) (s : Completed)
    (hs : s ∈ all source paths) : ∃ path ∈ paths, s.result = source path := by
  obtain ⟨⟨path, i⟩, hp, rfl⟩ := List.mem_map.mp hs
  exact ⟨path, List.fst_mem_of_mem_zipIdx hp, rfl⟩

theorem exists_mem_of_path (source : Source) (paths : List Path) (path : Path)
    (hp : path ∈ paths) : ∃ s ∈ all source paths, s.result = source path := by
  obtain ⟨i, hi⟩ := List.getElem?_of_mem hp
  refine ⟨⟨i, source path⟩, ?_, rfl⟩
  refine List.mem_map.mpr ⟨(path, i), ?_, rfl⟩
  simpa [List.mem_zipIdx_iff_getElem?] using hi

/-- Scans that end in the order of the paths report the first failure. -/
theorem gather_all (source : Source) (paths : List Path) :
    gather (all source paths) = paths.mapM source := by
  obtain ⟨files, hf, ho⟩ | ⟨front, path, back, e, he, hok, hp, ho⟩ := mapM_cases source paths
  · rw [ho, gather_of_perm source paths files _ (.refl _) hf]
  · rw [ho, gather_eq]
    have hsplit : ∃ rest,
        all source paths = all source front ++ ⟨front.length, .error e⟩ :: rest := by
      simp [all, he, List.zipIdx_append, hp]
    obtain ⟨rest, hr⟩ := hsplit
    obtain ⟨ps, -, hps⟩ | ⟨front', s, back', e', he', -, hs, -⟩ :=
      mapM_cases located (all source front)
    · rw [hr, List.mapM_append, hps, List.mapM_cons]
      rfl
    · obtain ⟨q, hq, hres⟩ := exists_path_of_mem source front s (by simp [he'])
      have hbad := located_isOk s
      rw [hs, hres, hok q hq] at hbad
      cases hbad

end Completed

end CallGraph

import CovarianceSearch.KernelTree.Text
import Mathlib.Data.List.Forall2

namespace CovarianceSearch

def BaseKernel.withoutDegree : BaseKernel → BaseKernel
  | .polynomial _ => .polynomial 1
  | k => k

namespace KernelTree

def withoutDegrees (t : KernelTree) : KernelTree := t.map id BaseKernel.withoutDegree

def rows : KernelTree → List (ℕ × String) :=
  OpTree.fold (fun k ↦ [(0, k.spec.title)]) fun c parts ↦
    (0, c.title) :: parts.flatten.map (Prod.map Nat.succ id)

def isMark (c : Char) : Bool := c = '|' || c = '+' || c = '-' || c = ' '

/-- The depth of a node, which four marks a level show, and its title. -/
def readRow (line : List Char) : ℕ × String :=
  ((line.takeWhile isMark).length / 4, String.ofList (line.dropWhile isMark))

def readRows (s : String) : List (ℕ × String) :=
  (s.toList.splitOn '\n').dropLast.map readRow

section

variable {line mark : String} {row : ℕ × String} {lines : List String} {rs : List (ℕ × String)}

structure IsRow (line : String) (row : ℕ × String) : Prop where
  unbroken : '\n' ∉ line.toList
  read : readRow line.toList = row

theorem IsRow.append (h : IsRow line row) (hmark : mark ∈ ["+-- ", "|-- ", "    ", "|   "]) :
    IsRow (mark ++ line) (row.map Nat.succ id) := by
  have hall : ∀ mark ∈ ["+-- ", "|-- ", "    ", "|   "],
      mark.toList.length = 4 ∧ mark.toList.all isMark = true := by decide
  obtain ⟨hlength, hmark⟩ := hall mark hmark
  rw [List.all_eq_true] at hmark
  constructor
  case unbroken =>
    rw [String.toList_append, List.mem_append, not_or]
    exact ⟨fun hbreak ↦ absurd (hmark '\n' hbreak) (by decide), h.unbroken⟩
  case read =>
    rw [← h.read, String.toList_append, readRow, readRow, List.takeWhile_append_of_pos hmark,
      List.dropWhile_append_of_pos hmark, List.length_append, hlength,
      Nat.add_div_left _ (by decide)]
    rfl

theorem forall₂_append (h : List.Forall₂ IsRow lines rs)
    (hmark : mark ∈ ["+-- ", "|-- ", "    ", "|   "]) :
    List.Forall₂ IsRow (lines.map (mark ++ ·)) (rs.map (Prod.map Nat.succ id)) := by
  rw [List.forall₂_map_left_iff, List.forall₂_map_right_iff]
  exact h.imp fun _ _ hrow ↦ hrow.append hmark

theorem isRow_title {title : String} (hbreak : '\n' ∉ title.toList)
    (hhead : ∀ c ∈ title.toList.head?, isMark c = false) : IsRow title (0, title) where
  unbroken := hbreak
  read := by
    have hnone : title.toList.takeWhile isMark = [] ∧
        title.toList.dropWhile isMark = title.toList := by
      cases hcs : title.toList with
      | nil => exact ⟨rfl, rfl⟩
      | cons c cs =>
        have hc : isMark c = false := hhead c (by rw [hcs]; rfl)
        simp [hc]
    rw [readRow, hnone.1, hnone.2, String.ofList_toList]
    rfl

theorem forall₂_branch (last : Bool) (h : List.Forall₂ IsRow lines rs) :
    List.Forall₂ IsRow (branch last lines) (rs.map (Prod.map Nat.succ id)) := by
  cases h with
  | nil => exact .nil
  | cons hfirst hrest =>
    cases last with
    | true => exact .cons (hfirst.append (by decide)) (forall₂_append hrest (by decide))
    | false => exact .cons (hfirst.append (by decide)) (forall₂_append hrest (by decide))

theorem forall₂_branches {parts : List (List String)} {rss : List (List (ℕ × String))}
    (h : List.Forall₂ (List.Forall₂ IsRow) parts rss) :
    List.Forall₂ IsRow (branches parts) (rss.flatten.map (Prod.map Nat.succ id)) := by
  induction h with
  | nil => exact .nil
  | @cons lines rs parts rss hfirst hrest ih =>
    rw [List.flatten_cons, List.map_append]
    cases hrest with
    | nil =>
      rw [List.flatten_nil, List.map_nil, List.append_nil]
      exact forall₂_branch true hfirst
    | cons => exact List.rel_append (forall₂_branch false hfirst) ih

end

variable {t u : KernelTree} {ts us : List KernelTree} {c : Combinator}

theorem rows_node (c : Combinator) (ts : List KernelTree) :
    rows (.node c ts) = (0, c.title) :: (ts.flatMap rows).map (Prod.map Nat.succ id) := by
  rw [rows, OpTree.fold_node]
  rfl

theorem isRow_baseTitle (k : BaseKernel) : IsRow k.spec.title (0, k.spec.title) := by
  apply isRow_title
  · cases k <;> simp [BaseKernel.spec]
  · cases k <;> simp [BaseKernel.spec, isMark]

theorem isRow_combinatorTitle (c : Combinator) : IsRow c.title (0, c.title) := by
  apply isRow_title
  · cases c <;> simp [Combinator.title]
  · cases c <;> simp [Combinator.title, isMark]

theorem forall₂_outlineLines (t : KernelTree) : List.Forall₂ IsRow t.outlineLines t.rows := by
  induction t using OpTree.induction with
  | leaf k => exact .cons (isRow_baseTitle k) .nil
  | node c ts ih =>
    rw [outlineLines, OpTree.fold_node, ← outlineLines, rows_node]
    refine .cons (isRow_combinatorTitle c) (forall₂_branches ?_)
    rw [List.forall₂_map_left_iff, List.forall₂_map_right_iff, List.forall₂_same]
    exact ih

theorem splitOn_join {lines : List String} (h : ∀ line ∈ lines, '\n' ∉ line.toList) :
    (String.join (lines.map (· ++ "\n"))).toList.splitOn '\n' =
      lines.map String.toList ++ [[]] := by
  rw [String.toList_join, List.flatMap_map]
  induction lines with
  | nil => rfl
  | cons line lines ih =>
    obtain ⟨hline, hlines⟩ := List.forall_mem_cons.1 h
    have hchars : ∀ c ∈ line.toList, (c == '\n') = false := fun c hc ↦
      beq_eq_false_iff_ne.2 fun heq ↦ hline (heq ▸ hc)
    rw [List.flatMap_cons, String.toList_append, List.append_assoc]
    change List.splitOnP (· == '\n') (line.toList ++ '\n' :: _) = _
    rw [List.splitOnP_append_cons_of_forall_mem hchars '\n' rfl, List.map_cons]
    exact congrArg _ (ih hlines)

/-- A drawing shows the depth and the title of every node. -/
theorem readRows_outline (t : KernelTree) : readRows t.outline = t.rows := by
  have hrows := forall₂_outlineLines t
  have hunbroken : ∀ line ∈ t.outlineLines, '\n' ∉ line.toList := by
    intro line hline
    obtain ⟨i, hi, rfl⟩ := List.mem_iff_getElem.1 hline
    exact ((List.forall₂_iff_get.1 hrows).2 i hi (hrows.length_eq ▸ hi)).unbroken
  rw [readRows, outline, splitOn_join hunbroken, List.dropLast_concat, List.map_map]
  have heq : List.Forall₂ Eq (t.outlineLines.map (readRow ∘ String.toList)) t.rows :=
    List.forall₂_map_left_iff.2 (hrows.imp fun _ _ hrow ↦ hrow.read)
  rwa [List.forall₂_eq_eq_eq] at heq

/-- What follows a subtree in a list of rows begins with a node beside it. -/
def StartsAfresh (rs : List (ℕ × String)) : Prop := ∀ row ∈ rs.head?, row.1 = 0

theorem startsAfresh_flatMap (ts : List KernelTree) : StartsAfresh (ts.flatMap rows) := by
  cases ts with
  | nil => exact nofun
  | cons t ts =>
    intro row hrow
    rw [List.flatMap_cons] at hrow
    cases t with
    | leaf k => cases hrow; rfl
    | node c us => rw [rows_node] at hrow; cases hrow; rfl

/-- The nodes below a node end where the depth falls back. -/
theorem eq_of_deeper_append_eq {inner inner' rest rest' : List (ℕ × String)}
    (hrest : StartsAfresh rest) (hrest' : StartsAfresh rest')
    (h : inner.map (Prod.map Nat.succ id) ++ rest = inner'.map (Prod.map Nat.succ id) ++ rest') :
    inner = inner' ∧ rest = rest' := by
  induction inner generalizing inner' with
  | nil =>
    cases inner' with
    | nil => exact ⟨rfl, h⟩
    | cons row' inner' =>
      rw [List.map_nil, List.nil_append] at h
      exact absurd (hrest (row'.map Nat.succ id) (by rw [h]; rfl)) (Nat.succ_ne_zero _)
  | cons row inner ih =>
    cases inner' with
    | nil =>
      rw [List.map_nil, List.nil_append] at h
      exact absurd (hrest' (row.map Nat.succ id) (by rw [← h]; rfl)) (Nat.succ_ne_zero _)
    | cons row' inner' =>
      rw [List.map_cons, List.map_cons, List.cons_append, List.cons_append] at h
      obtain ⟨hrow, h⟩ := List.cons.inj h
      obtain ⟨hinner, hafter⟩ := ih h
      obtain ⟨hdepth, htitle⟩ := Prod.mk.inj hrow
      exact ⟨congrArg₂ _ (Prod.ext (Nat.succ.inj hdepth) htitle) hinner, hafter⟩

theorem find?_title (k : BaseKernel) :
    BaseKernel.registered.find? (·.spec.title == k.spec.title) = some k.withoutDegree := by
  cases k with
  | polynomial degree => rfl
  | _ => decide

theorem withoutDegree_eq_iff {k l : BaseKernel} :
    k.withoutDegree = l.withoutDegree ↔ k.spec.title = l.spec.title := by
  constructor
  · intro h
    have hspec (k : BaseKernel) : k.withoutDegree.spec = k.spec := by cases k <;> rfl
    rw [← hspec k, h, hspec l]
  · intro h
    have hfind := find?_title k
    rw [h, find?_title l] at hfind
    exact (Option.some.inj hfind).symm

theorem baseTitle_ne_combinatorTitle (k : BaseKernel) (c : Combinator) :
    k.spec.title ≠ c.title := by
  cases k <;> cases c <;> simp [BaseKernel.spec, Combinator.title]

theorem combinatorTitle_injective : Function.Injective Combinator.title := by
  intro c d h
  cases c <;> cases d <;> first | rfl | simp [Combinator.title] at h

theorem map_withoutDegrees_eq
    (h : ∀ t ∈ ts, ∀ u rest rest', StartsAfresh rest → StartsAfresh rest' →
      rows t ++ rest = rows u ++ rest' → t.withoutDegrees = u.withoutDegrees ∧ rest = rest')
    (hrows : ts.flatMap rows = us.flatMap rows) :
    ts.map withoutDegrees = us.map withoutDegrees := by
  induction ts generalizing us with
  | nil =>
    cases us with
    | nil => rfl
    | cons u us => cases u <;> simp [rows] at hrows
  | cons t ts ih =>
    obtain ⟨ht, hts⟩ := List.forall_mem_cons.1 h
    cases us with
    | nil => cases t <;> simp [rows] at hrows
    | cons u us =>
      rw [List.flatMap_cons, List.flatMap_cons] at hrows
      obtain ⟨hfirst, hrest⟩ :=
        ht u _ _ (startsAfresh_flatMap ts) (startsAfresh_flatMap us) hrows
      rw [List.map_cons, List.map_cons, hfirst, ih hts hrest]

/-- The rows of a tree end where those of another begin, and tell everything but degrees. -/
theorem withoutDegrees_eq_of_rows_append (t u : KernelTree) (rest rest' : List (ℕ × String))
    (hrest : StartsAfresh rest) (hrest' : StartsAfresh rest')
    (h : rows t ++ rest = rows u ++ rest') :
    t.withoutDegrees = u.withoutDegrees ∧ rest = rest' := by
  induction t using OpTree.induction generalizing u rest rest' with
  | leaf k =>
    cases u with
    | leaf l =>
      obtain ⟨hrow, hafter⟩ := List.cons.inj h
      have htitle : k.spec.title = l.spec.title := (Prod.mk.inj hrow).2
      exact ⟨congrArg OpTree.leaf (withoutDegree_eq_iff.2 htitle), hafter⟩
    | node d us =>
      rw [rows_node] at h
      obtain ⟨hrow, -⟩ := List.cons.inj h
      exact absurd (Prod.mk.inj hrow).2 (baseTitle_ne_combinatorTitle k d)
  | node c ts ih =>
    cases u with
    | leaf l =>
      rw [rows_node] at h
      obtain ⟨hrow, -⟩ := List.cons.inj h
      exact absurd (Prod.mk.inj hrow).2.symm (baseTitle_ne_combinatorTitle l c)
    | node d us =>
      rw [rows_node, rows_node, List.cons_append, List.cons_append] at h
      obtain ⟨hrow, hbelow⟩ := List.cons.inj h
      obtain rfl : c = d := combinatorTitle_injective (Prod.mk.inj hrow).2
      obtain ⟨hinner, hafter⟩ := eq_of_deeper_append_eq hrest hrest' hbelow
      refine ⟨?_, hafter⟩
      rw [withoutDegrees, withoutDegrees, OpTree.map_node, OpTree.map_node]
      exact congrArg _ (map_withoutDegrees_eq ih hinner)

theorem outlineLines_withoutDegrees (t : KernelTree) :
    t.withoutDegrees.outlineLines = t.outlineLines := by
  induction t using OpTree.induction with
  | leaf k => exact congrArg (fun title ↦ [title]) (withoutDegree_eq_iff.1 (by cases k <;> rfl))
  | node c ts ih =>
    rw [withoutDegrees, OpTree.map_node, outlineLines, OpTree.fold_node, OpTree.fold_node,
      ← outlineLines, List.map_map]
    exact congrArg (fun lines ↦ c.title :: branches lines) (List.map_congr_left ih)

/-- A drawing shows how deep every node lies, which title it has and which nodes it stands between,
and so two trees are drawn alike only if no more than degrees of polynomials make them differ. -/
theorem outline_eq_iff (t u : KernelTree) : readRows t.outline = t.rows ∧
    (t.outline = u.outline ↔ t.withoutDegrees = u.withoutDegrees) := by
  refine ⟨readRows_outline t, fun h ↦ ?_, fun h ↦ ?_⟩
  · have hrows : t.rows ++ [] = u.rows ++ [] := by
      rw [List.append_nil, List.append_nil, ← readRows_outline, h, readRows_outline]
    exact (withoutDegrees_eq_of_rows_append t u [] [] nofun nofun hrows).1
  · rw [outline, ← outlineLines_withoutDegrees, h, outlineLines_withoutDegrees, outline]

end KernelTree

end CovarianceSearch

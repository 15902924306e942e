import CovarianceSearch.Proofs.Expression.Scan
import CovarianceSearch.Proofs.KernelTree.Reordering

namespace CovarianceSearch

universe u

variable {R : Type u} [CommSemiring R]

/-- What has been read of a sum: its complete terms, and the factors of the term under way. -/
structure Pending (R : Type u) where
  terms : R
  factors : R

namespace Pending

def start : Pending R := ⟨0, 1⟩

def total (p : Pending R) : R := p.terms + p.factors

/-- Reads one token of arithmetic. The sum in the innermost open bracket comes first. -/
def readToken (g : String → R) : List (Pending R) → Token → List (Pending R)
  | p :: ps, .name word => { p with factors := p.factors * g word } :: ps
  | p :: ps, .plus => ⟨p.total, 1⟩ :: ps
  | ps, .openBracket => start :: ps
  | p :: q :: ps, .closeBracket => { q with factors := q.factors * p.total } :: ps
  | ps, _ => ps

end Pending

open Pending Token

noncomputable def valueOfText (f : BaseKernel → R) (s : String) : R :=
  match Token.scan 0 s.toList with
  | .ok ts =>
    ((ts.foldl (readToken (Function.extend BaseKernel.name f 0)) [start]).head?.map total).getD 0
  | .error _ => 0

namespace KernelTree

variable {g : String → R} {cs : List Char} {ts : List Token} {v : R}

/-- Whether a text is made of these tokens, as long as no word goes on behind it. -/
def Spells (cs : List Char) (ts : List Token) : Prop :=
  ∀ {ds us}, (∀ d ∈ ds.head?, isWord d = false) → Scans ds us → Scans (cs ++ ds) (ts ++ us)

/-- Whether reading a text multiplies the term under way by `v`. -/
def ReadsAsFactor (g : String → R) (cs : List Char) (v : R) : Prop :=
  ∃ ts, Spells cs ts ∧
    ∀ p ps, ts.foldl (readToken g) (p :: ps) = { p with factors := p.factors * v } :: ps

/-- Whether reading a text, at the start of a term, adds `v`. -/
def ReadsAsSum (g : String → R) (cs : List Char) (v : R) : Prop :=
  ∃ ts, Spells cs ts ∧
    ∀ a ps, ∃ p, ts.foldl (readToken g) (⟨a, 1⟩ :: ps) = p :: ps ∧ p.total = a + v

theorem ReadsAsFactor.readsAsSum (h : ReadsAsFactor g cs v) : ReadsAsSum g cs v := by
  obtain ⟨ts, hspells, hread⟩ := h
  refine ⟨ts, hspells, fun a ps ↦ ⟨_, hread _ ps, ?_⟩⟩
  rw [total, one_mul]

theorem readsAsFactor_name (k : BaseKernel) : ReadsAsFactor g k.name.toList (g k.name) :=
  ⟨[.name k.name], fun hnext h ↦ .baseKernel k hnext h, fun _ _ ↦ rfl⟩

theorem ReadsAsSum.bracketed (h : ReadsAsSum g cs v) :
    ReadsAsFactor g ('(' :: cs ++ [')']) v := by
  obtain ⟨ts, hspells, hread⟩ := h
  refine ⟨.openBracket :: ts ++ [.closeBracket], ?_, fun p ps ↦ ?_⟩
  · intro ds us hnext hds
    have hclose : Scans (')' :: ds) (.closeBracket :: us) := .sign rfl hds
    have hopen := Scans.sign (c := '(') (t := .openBracket) rfl (hspells (by simp [isWord]) hclose)
    simpa using hopen
  · obtain ⟨q, hq, htotal⟩ := hread 0 (p :: ps)
    have hopen : readToken g (p :: ps) .openBracket = ⟨0, 1⟩ :: p :: ps := rfl
    have hclose : readToken g (q :: p :: ps) .closeBracket =
        { p with factors := p.factors * q.total } :: ps := rfl
    rw [List.foldl_append, List.foldl_cons, List.foldl_cons, List.foldl_nil, hopen, hq, hclose,
      htotal, zero_add]

def signToken : Operation → Token
  | .sum => .plus
  | .product => .star

theorem Spells.sign (op : Operation) {cs' : List Char} {ts' : List Token} (h : Spells cs ts)
    (h' : Spells cs' ts') :
    Spells (cs ++ op.sign.toList ++ cs') (ts ++ signToken op :: ts') := by
  intro ds us hnext hds
  have hrest := (h' hnext hds).space
  have hsign : Scans (op.sign.toList ++ (cs' ++ ds)) (signToken op :: (ts' ++ us)) := by
    cases op with
    | sum => exact .space (.sign (c := '+') rfl hrest)
    | product => exact .space (.sign (c := '*') rfl hrest)
  have hhead : ∀ d ∈ (op.sign.toList ++ (cs' ++ ds)).head?, isWord d = false := by
    cases op <;> simp [Operation.sign, isWord]
  simpa using h hhead hsign

theorem readsAsFactor_intercalate {parts : List (List Char)} {vs : List R} (hne : parts ≠ [])
    (h : List.Forall₂ (ReadsAsFactor g) parts vs) :
    ReadsAsFactor g (Operation.product.sign.toList.intercalate parts) vs.prod := by
  induction h with
  | nil => exact absurd rfl hne
  | @cons cs v parts vs hcs hparts ih =>
    cases hparts with
    | nil => simpa using hcs
    | @cons cs' v' parts vs hcs' hparts =>
      obtain ⟨ts, hspells, hread⟩ := hcs
      obtain ⟨ts', hspells', hread'⟩ := ih (by simp)
      rw [List.intercalate_cons_cons]
      refine ⟨_, hspells.sign .product hspells', fun p ps ↦ ?_⟩
      rw [List.foldl_append, hread, List.foldl_cons, signToken, readToken, hread', List.prod_cons,
        mul_assoc]
      all_goals simp

theorem readsAsSum_intercalate {parts : List (List Char)} {vs : List R} (hne : parts ≠ [])
    (h : List.Forall₂ (ReadsAsSum g) parts vs) :
    ReadsAsSum g (Operation.sum.sign.toList.intercalate parts) vs.sum := by
  induction h with
  | nil => exact absurd rfl hne
  | @cons cs v parts vs hcs hparts ih =>
    cases hparts with
    | nil => simpa using hcs
    | @cons cs' v' parts vs hcs' hparts =>
      obtain ⟨ts, hspells, hread⟩ := hcs
      obtain ⟨ts', hspells', hread'⟩ := ih (by simp)
      rw [List.intercalate_cons_cons]
      refine ⟨_, hspells.sign .sum hspells', fun a ps ↦ ?_⟩
      obtain ⟨p, hp, htotal⟩ := hread a ps
      obtain ⟨q, hq, htotal'⟩ := hread' p.total ps
      refine ⟨q, ?_, ?_⟩
      · rw [List.foldl_append, hp, List.foldl_cons]
        exact hq
      · rw [htotal', htotal, List.sum_cons (a := v), add_assoc]

variable {f : BaseKernel → R} {point window : List R → R} {t : KernelTree} {inProduct : Bool}
  {s : String}

omit [CommSemiring R] in
theorem exists_values (F : KernelTree → R) {P : KernelTree → String → Prop}
    {Q : List Char → R → Prop} {us : List KernelTree} {parts : List String}
    (h : List.Forall₂ P us parts) (hPQ : ∀ u ∈ us, ∀ part, P u part → Q part.toList (F u)) :
    ∃ vs, List.Forall₂ Q ((StableSort.sort (· < ·) parts).map String.toList) vs ∧
      vs.Perm (us.map F) := by
  have hvalues : List.Forall₂ (fun part v ↦ Q part.toList v) parts (us.map F) := by
    induction h with
    | nil => exact .nil
    | cons hu _ ih =>
      obtain ⟨hhead, htail⟩ := List.forall_mem_cons.1 hPQ
      exact .cons (hhead _ hu) (ih htail)
  obtain ⟨vs, hvs, hperm⟩ := List.perm_comp_forall₂ (StableSort.sort_perm _ parts) hvalues
  exact ⟨vs, List.forall₂_map_left_iff.2 hvs, hperm⟩

/-- Reading the text of a valid tree finds the value of the tree. Inside a product the text is a
factor. -/
theorem IsValid.readsAs (point window : List R → R) (hg : ∀ k, g k.name = f k) (h : IsValid t)
    (hs : textWithin t inProduct = .ok s) :
    (inProduct = true → ReadsAsFactor g s.toList (value f point window t)) ∧
      ReadsAsSum g s.toList (value f point window t) := by
  induction t using OpTree.induction generalizing inProduct s with
  | leaf k =>
    obtain rfl := Except.ok.inj hs
    have hname : ReadsAsFactor g k.name.toList (f k) := hg k ▸ readsAsFactor_name k
    exact ⟨fun _ ↦ hname, hname.readsAsSum⟩
  | node c ts ih =>
    obtain ⟨hc, hne, hts⟩ := isValid_node_iff.1 h
    obtain ⟨op, parts, hop, hparts, rfl⟩ := textWithin_node_iff.1 hs
    have hne' : (StableSort.sort (· < ·) parts).map String.toList ≠ [] := by
      rw [← List.length_pos_iff, List.length_map, (StableSort.sort_perm _ parts).length_eq,
        ← hparts.length_eq, List.length_pos_iff]
      exact hne
    rcases hc with rfl | rfl
    · obtain rfl : Operation.sum = op := Except.ok.inj hop
      obtain ⟨vs, hvs, hperm⟩ := exists_values (value f point window)
        (Q := ReadsAsSum g) hparts fun u hu part hpart ↦ (ih u hu (hts u hu) hpart).2
      have hsum := readsAsSum_intercalate hne' hvs
      rw [hperm.sum_eq, ← value_sumNode, ← String.toList_intercalate] at hsum
      cases inProduct with
      | false => exact ⟨fun h ↦ (Bool.false_ne_true h).elim, hsum⟩
      | true =>
        have hbracketed : (joined .sum true parts).toList = '(' :: String.toList
            (Operation.sum.sign.intercalate (StableSort.sort (· < ·) parts)) ++ [')'] := by
          simp [joined]
        rw [hbracketed]
        exact ⟨fun _ ↦ hsum.bracketed, hsum.bracketed.readsAsSum⟩
    · obtain rfl : Operation.product = op := Except.ok.inj hop
      obtain ⟨vs, hvs, hperm⟩ := exists_values (value f point window)
        (Q := ReadsAsFactor g) hparts fun u hu part hpart ↦ (ih u hu (hts u hu) hpart).1 rfl
      have hproduct := readsAsFactor_intercalate hne' hvs
      rw [hperm.prod_eq, ← value_productNode, ← String.toList_intercalate] at hproduct
      exact ⟨fun _ ↦ hproduct, hproduct.readsAsSum⟩

theorem IsValid.valueOfText_eq (h : IsValid t) (hs : t.text = .ok s) :
    valueOfText f s = value f point window t := by
  have hg (k : BaseKernel) : Function.extend BaseKernel.name f 0 k.name = f k :=
    BaseKernel.name_injective.extend_apply f 0 k
  obtain ⟨ts, hspells, hread⟩ := (h.readsAs point window hg hs).2
  obtain ⟨p, hp, htotal⟩ := hread 0 []
  have hscan : Token.scan 0 s.toList = .ok ts := by
    have hscans : Scans (s.toList ++ []) (ts ++ []) := hspells (by simp) .nil
    rw [List.append_nil, List.append_nil] at hscans
    exact hscans.scan_eq 0
  rw [valueOfText, hscan]
  change ((ts.foldl _ [⟨0, 1⟩]).head?.map total).getD 0 = _
  rw [hp, List.head?_cons, Option.map_some, Option.getD_some, htotal, zero_add]

theorem IsValid.exists_textWithin (h : IsValid t) (inProduct : Bool) :
    ∃ s, textWithin t inProduct = .ok s := by
  induction t using OpTree.induction generalizing inProduct with
  | leaf k => exact ⟨_, textWithin_leaf k inProduct⟩
  | node c ts ih =>
    obtain ⟨hc, -, hts⟩ := isValid_node_iff.1 h
    obtain ⟨op, hop⟩ : ∃ op, c.operation = .ok op := by
      rcases hc with rfl | rfl
      · exact ⟨.sum, rfl⟩
      · exact ⟨.product, rfl⟩
    obtain ⟨parts, hparts⟩ := Outcome.exists_mapM_eq_ok fun t ht ↦
      ih t ht (hts t ht) (op = .product)
    exact ⟨_, textWithin_node hop (Outcome.mapM_eq_ok_iff.1 hparts) inProduct⟩

/-- Texts are unambiguous without simplification: a valid tree has a text, and two with the same
text have the same value, whatever values base kernels have. The text of no tree depends on the
order of the operands of its nodes. -/
theorem text_fixes_value {u : KernelTree} (ht : t.validate = .ok ()) (hu : u.validate = .ok ()) :
    (∃ s s', t.text = .ok s ∧ u.text = .ok s' ∧
      (s = s' → ∀ (R : Type u) [CommSemiring R] (f : BaseKernel → R) (point window : List R → R),
        value f point window t = value f point window u)) ∧
      ∀ v w : KernelTree, v.Reorders w → ∀ s, v.text = .ok s ↔ w.text = .ok s := by
  have ht : IsValid t := ht
  have hu : IsValid u := hu
  obtain ⟨s, hs⟩ := ht.exists_textWithin false
  obtain ⟨s', hs'⟩ := hu.exists_textWithin false
  refine ⟨⟨s, s', hs, hs', ?_⟩, fun v w h s ↦ h.text_eq_iff⟩
  rintro rfl R _ f point window
  exact (ht.valueOfText_eq hs).symm.trans (hu.valueOfText_eq hs')

def nestedSum : KernelTree :=
  .node .product [.node .sum [.leaf .white, .leaf .rbf], .node .product [.leaf .linear]]

def nestedProduct : KernelTree :=
  .node .product [.leaf .linear,
    .node .product [.node .sum [.leaf .rbf, .node .sum [.node .product [.leaf .white]]]]]

theorem text_fixes_value_nestedSum :
    nestedSum.validate = .ok () ∧ nestedProduct.validate = .ok () ∧
      nestedSum.text = .ok "(rbf + white) * linear" ∧
      nestedProduct.text = .ok "(rbf + white) * linear" ∧
      ∀ f : BaseKernel → ℕ, value f List.sum List.sum nestedSum =
        value f List.sum List.sum nestedProduct := by
  have htext : nestedSum.text = .ok "(rbf + white) * linear" := by decide
  have htext' : nestedProduct.text = .ok "(rbf + white) * linear" := by decide
  obtain ⟨⟨s, s', hs, hs', hvalue⟩, -⟩ :=
    text_fixes_value (t := nestedSum) (u := nestedProduct) rfl rfl
  have hsame : s = s' := by
    rw [htext] at hs
    rw [htext'] at hs'
    exact (Except.ok.inj hs).symm.trans (Except.ok.inj hs')
  exact ⟨rfl, rfl, htext, htext', fun f ↦ hvalue hsame ℕ f List.sum List.sum⟩

end KernelTree

end CovarianceSearch

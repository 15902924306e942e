import CovarianceSearch.Proofs.KernelTree.Key

namespace CovarianceSearch.KernelTree

/-- The second tree comes from the first by putting the operands of nodes, at any depth, in another
order. -/
inductive Reorders : KernelTree → KernelTree → Prop
  | refl (t : KernelTree) : Reorders t t
  | trans {t u v : KernelTree} : Reorders t u → Reorders u v → Reorders t v
  | node {c : Combinator} {ts us : List KernelTree} :
      ts.Perm us → Reorders (.node c ts) (.node c us)
  | operand {c : Combinator} {before behind : List KernelTree} {t u : KernelTree} :
      Reorders t u → Reorders (.node c (before ++ t :: behind)) (.node c (before ++ u :: behind))

variable {c : Combinator} {t u : KernelTree} {ts us : List KernelTree}

theorem Reorders.symm (h : Reorders t u) : Reorders u t := by
  induction h with
  | refl t => exact .refl t
  | trans _ _ ih ih' => exact .trans ih' ih
  | node hperm => exact .node hperm.symm
  | operand _ ih => exact .operand ih

theorem Reorders.op?_eq (h : Reorders t u) : t.op? = u.op? := by
  induction h with
  | refl t => rfl
  | trans _ _ ih ih' => exact ih.trans ih'
  | node _ => rfl
  | operand _ _ => rfl

theorem reorders_node_of_forall₂ (before : List KernelTree) (h : List.Forall₂ Reorders ts us) :
    Reorders (.node c (before ++ ts)) (.node c (before ++ us)) := by
  induction h generalizing before with
  | nil => exact .refl _
  | @cons t u ts us htu _ ih =>
    have hrest := ih (before ++ [u])
    rw [List.append_assoc, List.append_assoc] at hrest
    exact (Reorders.operand htu).trans hrest

theorem reorders_node {vs : List KernelTree} (h : List.Forall₂ Reorders ts us)
    (hperm : us.Perm vs) : Reorders (.node c ts) (.node c vs) :=
  (reorders_node_of_forall₂ [] h).trans (.node hperm)

theorem joined_perm {op : Operation} {inProduct : Bool} {parts parts' : List String}
    (h : parts.Perm parts') : joined op inProduct parts = joined op inProduct parts' := by
  have hsort : StableSort.sort (· < ·) parts = StableSort.sort (· < ·) parts' := by
    rw [StableSort.sort_lt_eq, StableSort.sort_lt_eq, Multiset.coe_eq_coe.2 h]
  rw [joined, joined, hsort]

theorem textWithin_node_iff {inProduct : Bool} {s : String} :
    textWithin (.node c ts) inProduct = .ok s ↔ ∃ op parts, c.operation = .ok op ∧
      List.Forall₂ (fun t part ↦ textWithin t (op = .product) = .ok part) ts parts ∧
        joined op inProduct parts = s := by
  constructor
  · intro h
    rw [textWithin, OpTree.fold_node, ← textWithin] at h
    obtain ⟨op, hop, h⟩ := Outcome.bind_eq_ok_iff.1 h
    obtain ⟨parts, hparts, h⟩ := Outcome.bind_eq_ok_iff.1 h
    have hparts := List.forall₂_map_left_iff.1 (Outcome.mapM_eq_ok_iff.1 hparts)
    exact ⟨op, parts, hop, hparts, Except.ok.inj h⟩
  · intro h
    obtain ⟨op, parts, hop, hparts, rfl⟩ := h
    exact textWithin_node hop hparts inProduct

theorem forall₂_operand {α β : Type} {R : α → β → Prop} {a a' : α} (ha : ∀ b, R a b → R a' b)
    {before behind : List α} {bs : List β} (h : List.Forall₂ R (before ++ a :: behind) bs) :
    List.Forall₂ R (before ++ a' :: behind) bs := by
  induction before generalizing bs with
  | nil =>
    obtain ⟨b, bs, hb, hbs, rfl⟩ := List.forall₂_cons_left_iff.1 h
    exact .cons (ha b hb) hbs
  | cons x before ih =>
    obtain ⟨b, bs, hb, hbs, rfl⟩ := List.forall₂_cons_left_iff.1 h
    exact .cons hb (ih hbs)

theorem Reorders.textWithin_of_textWithin (h : Reorders t u) {inProduct : Bool} {s : String}
    (hs : textWithin t inProduct = .ok s) : textWithin u inProduct = .ok s := by
  induction h generalizing inProduct s with
  | refl t => exact hs
  | trans _ _ ih ih' => exact ih' (ih hs)
  | node hperm =>
    obtain ⟨op, parts, hop, hparts, rfl⟩ := textWithin_node_iff.1 hs
    obtain ⟨parts', hparts', hperm'⟩ := List.perm_comp_forall₂ hperm.symm hparts
    exact textWithin_node_iff.2 ⟨op, parts', hop, hparts', joined_perm hperm'⟩
  | operand _ ih =>
    obtain ⟨op, parts, hop, hparts, rfl⟩ := textWithin_node_iff.1 hs
    exact textWithin_node_iff.2 ⟨op, parts, hop, forall₂_operand (fun _ ↦ ih) hparts, rfl⟩

theorem Reorders.text_eq_iff (h : Reorders t u) {s : String} : t.text = .ok s ↔ u.text = .ok s :=
  ⟨h.textWithin_of_textWithin, h.symm.textWithin_of_textWithin⟩

end CovarianceSearch.KernelTree
